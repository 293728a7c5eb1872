import MemX.CommandDeadline
import MemX.CommandOutcome
import MemX.TextFold

namespace MemX.CommandSet

open MachineInt DecimalText Clock StoreState StoreRules TextCase TextFold RespWrite
open CommandProgram CommandHandlers CommandRegistry CommandWrites CommandEffect CommandOutcome CommandDeadline

structure Expiry where
  unit : Int
  keyword : Bytes
  value : Bytes
  n : Int
  spelled : Recased keyword (ascii "EX") ∧ unit = second ∨ Recased keyword (ascii "PX") ∧ unit = millisecond
  parsed : parseInt value = some n
  positive : 0 < n

structure Condition where
  mode : SetMode
  keyword : Bytes
  spelled : Recased keyword (ascii "NX") ∧ mode = .nx ∨ Recased keyword (ascii "XX") ∧ mode = .xx

inductive Group
  | expiry (e : Expiry)
  | condition (k : Condition)

namespace Group

def tokens : Group → List Bytes
  | expiry e => [e.keyword, e.value]
  | condition k => [k.keyword]

def isExpiry : Group → Bool
  | expiry _ => true
  | condition _ => false

def isCondition : Group → Bool
  | expiry _ => false
  | condition _ => true

def set (o : SetOptions) : Group → SetOptions
  | expiry e => { o with ttl := wrap64 (e.n * e.unit), ttlSet := true }
  | condition k => { o with mode := k.mode }

end Group

def Single (groups : List Group) : Prop := groups.countP Group.isExpiry ≤ 1 ∧ groups.countP Group.isCondition ≤ 1

def Grammar (args : List Bytes) : Prop :=
  ∃ key val groups, args = key :: val :: groups.flatMap Group.tokens ∧ Single groups

section Keywords

variable (t : CaseTable) (opt : Bytes)

theorem toUpper_ex : toUpper t opt = ascii "EX" ↔ Recased opt (ascii "EX") := toUpper_eq_iff t (by decide +kernel) opt

theorem toUpper_px : toUpper t opt = ascii "PX" ↔ Recased opt (ascii "PX") := toUpper_eq_iff t (by decide +kernel) opt

theorem toUpper_nx : toUpper t opt = ascii "NX" ↔ Recased opt (ascii "NX") := toUpper_eq_iff t (by decide +kernel) opt

theorem toUpper_xx : toUpper t opt = ascii "XX" ↔ Recased opt (ascii "XX") := toUpper_eq_iff t (by decide +kernel) opt

end Keywords

/-- The groups fit behind the options that are already set. -/
structure Fits (o : SetOptions) (groups : List Group) : Prop where
  single : Single groups
  expiry : o.ttlSet = true → groups.countP Group.isExpiry = 0
  condition : o.mode ≠ .always → groups.countP Group.isCondition = 0

theorem Condition.mode_ne (k : Condition) : k.mode ≠ .always := by
  obtain ⟨-, h⟩ | ⟨-, h⟩ := k.spelled <;> rw [h] <;> decide

theorem Expiry.upper (t : CaseTable) (e : Expiry) :
    (toUpper t e.keyword = ascii "EX" ∧ e.unit = second) ∨
      (toUpper t e.keyword = ascii "PX" ∧ e.unit = millisecond) := by
  obtain ⟨h, hu⟩ | ⟨h, hu⟩ := e.spelled
  · exact .inl ⟨(toUpper_ex t _).mpr h, hu⟩
  · exact .inr ⟨(toUpper_px t _).mpr h, hu⟩

theorem Condition.upper (t : CaseTable) (k : Condition) :
    (toUpper t k.keyword = ascii "NX" ∧ k.mode = .nx) ∨ (toUpper t k.keyword = ascii "XX" ∧ k.mode = .xx) := by
  obtain ⟨h, hu⟩ | ⟨h, hu⟩ := k.spelled
  · exact .inl ⟨(toUpper_nx t _).mpr h, hu⟩
  · exact .inr ⟨(toUpper_xx t _).mpr h, hu⟩

theorem expiryOption_eq (t : CaseTable) (e : Expiry) : expiryOption t e.keyword e.value = some (e.unit, e.n) := by
  have hne : ascii "PX" ≠ ascii "EX" := by decide
  obtain ⟨hk, hu⟩ | ⟨hk, hu⟩ := e.upper t
  · simp [expiryOption, hk, hu, e.parsed]
  · simp [expiryOption, hk, hu, hne, e.parsed]

theorem flagOption_eq (t : CaseTable) (k : Condition) : flagOption t k.keyword = some k.mode := by
  have hne : ascii "XX" ≠ ascii "NX" := by decide
  obtain ⟨hk, hu⟩ | ⟨hk, hu⟩ := k.upper t
  · simp [flagOption, hk, hu]
  · simp [flagOption, hk, hu, hne]

theorem setOptions_group (t : CaseTable) {o : SetOptions} (g : Group) (rest : List Bytes)
    (hx : g.isExpiry = true → o.ttlSet = false) (hc : g.isCondition = true → o.mode = .always) :
    setOptions t o (g.tokens ++ rest) = setOptions t (Group.set o g) rest := by
  cases g with
  | expiry e =>
    have hn : ¬ e.n ≤ 0 := not_le.mpr e.positive
    exact (setOptions_expiry (expiryOption_eq t e) (hx rfl) rest).trans (if_neg hn)
  | condition k => exact setOptions_flag (flagOption_eq t k) (hc rfl) rest

theorem fits_expiry {o : SetOptions} {e : Expiry} {groups : List Group} :
    Fits o (.expiry e :: groups) ↔ o.ttlSet = false ∧ Fits (Group.set o (.expiry e)) groups := by
  have hexp : (Group.expiry e :: groups).countP Group.isExpiry = groups.countP Group.isExpiry + 1 :=
    List.countP_cons_of_pos rfl
  have hcond : (Group.expiry e :: groups).countP Group.isCondition = groups.countP Group.isCondition :=
    List.countP_cons_of_neg Bool.false_ne_true
  constructor
  · rintro ⟨⟨h₁, h₂⟩, h₃, h₄⟩
    rw [hexp] at h₁ h₃
    rw [hcond] at h₂ h₄
    exact ⟨Bool.eq_false_iff.mpr fun h => by simpa using h₃ h, ⟨by omega, h₂⟩, fun _ => by omega, h₄⟩
  · rintro ⟨ho, ⟨-, h₂⟩, h₃, h₄⟩
    have hnone := h₃ rfl
    refine ⟨⟨by omega, by omega⟩, fun h => ?_, fun h => hcond.trans (h₄ h)⟩
    rw [ho] at h
    cases h

theorem fits_condition {o : SetOptions} {k : Condition} {groups : List Group} :
    Fits o (.condition k :: groups) ↔ o.mode = .always ∧ Fits (Group.set o (.condition k)) groups := by
  have hexp : (Group.condition k :: groups).countP Group.isExpiry = groups.countP Group.isExpiry :=
    List.countP_cons_of_neg Bool.false_ne_true
  have hcond : (Group.condition k :: groups).countP Group.isCondition = groups.countP Group.isCondition + 1 :=
    List.countP_cons_of_pos rfl
  constructor
  · rintro ⟨⟨h₁, h₂⟩, h₃, h₄⟩
    rw [hexp] at h₁ h₃
    rw [hcond] at h₂ h₄
    exact ⟨by_contra fun h => by simpa using h₄ h, ⟨h₁, by omega⟩, h₃, fun _ => by omega⟩
  · rintro ⟨ho, ⟨h₁, -⟩, h₃, h₄⟩
    have hnone := h₄ k.mode_ne
    exact ⟨⟨by omega, by omega⟩, fun h => hexp.trans (h₃ h), fun h => absurd ho h⟩

theorem setOptions_groups (t : CaseTable) {o : SetOptions} {groups : List Group} (h : Fits o groups) :
    setOptions t o (groups.flatMap Group.tokens) = .ok (groups.foldl Group.set o) := by
  induction groups generalizing o with
  | nil => rfl
  | cons g groups ih =>
    cases g with
    | expiry e =>
      obtain ⟨ho, hfits⟩ := fits_expiry.mp h
      exact (setOptions_group t (.expiry e) _ (fun _ => ho) nofun).trans (ih hfits)
    | condition k =>
      obtain ⟨ho, hfits⟩ := fits_condition.mp h
      exact (setOptions_group t (.condition k) _ nofun fun _ => ho).trans (ih hfits)

theorem groups_of_setOptions (t : CaseTable) {o o' : SetOptions} {rest : List Bytes}
    (h : setOptions t o rest = .ok o') : ∃ groups, rest = groups.flatMap Group.tokens ∧ Fits o groups := by
  fun_induction setOptions t o rest generalizing o' with
  | case1 o => exact ⟨[], rfl, by simp [Single], by simp, by simp⟩
  | case6 o opt up hup v rest hset n hn hpos unit =>
    rename_i ih
    obtain ⟨groups, rfl, hfits⟩ := ih h
    have hspelled : Recased opt (ascii "EX") ∧ unit = second ∨ Recased opt (ascii "PX") ∧ unit = millisecond := by
      obtain hk | hk := hup
      · exact .inl ⟨(toUpper_ex t opt).mp hk, if_pos hk⟩
      · exact .inr ⟨(toUpper_px t opt).mp hk, if_neg (by rw [hk]; decide)⟩
    refine ⟨.expiry ⟨unit, opt, v, n, hspelled, hn, not_le.mp hpos⟩ :: groups, rfl, ?_⟩
    exact fits_expiry.mpr ⟨Bool.eq_false_iff.mpr hset, hfits⟩
  | case8 o opt rest up hup hk hmode =>
    rename_i ih
    obtain ⟨groups, rfl, hfits⟩ := ih h
    refine ⟨.condition ⟨.nx, opt, .inl ⟨(toUpper_nx t opt).mp hk, rfl⟩⟩ :: groups, rfl, ?_⟩
    exact fits_condition.mpr ⟨not_not.mp hmode, hfits⟩
  | case10 o opt rest up hup hnx hk hmode =>
    rename_i ih
    obtain ⟨groups, rfl, hfits⟩ := ih h
    refine ⟨.condition ⟨.xx, opt, .inr ⟨(toUpper_xx t opt).mp hk, rfl⟩⟩ :: groups, rfl, ?_⟩
    exact fits_condition.mpr ⟨not_not.mp hmode, hfits⟩
  | _ => cases h

theorem fits_start {groups : List Group} : Fits ⟨0, false, .always⟩ groups ↔ Single groups :=
  ⟨fun h => h.single, fun h => ⟨h, by simp, by simp⟩⟩

theorem eq_of_countP_le_one {p : Group → Bool} {groups : List Group} (h : groups.countP p ≤ 1) {g g' : Group}
    (hg : g ∈ groups) (hg' : g' ∈ groups) (hp : p g = true) (hp' : p g' = true) : g = g' := by
  rw [List.countP_eq_length_filter] at h
  have hm : g ∈ groups.filter p := List.mem_filter.mpr ⟨hg, hp⟩
  have hm' : g' ∈ groups.filter p := List.mem_filter.mpr ⟨hg', hp'⟩
  match hl : groups.filter p with
  | [] => simp [hl] at hm
  | [x] =>
    rw [hl, List.mem_singleton] at hm hm'
    rw [hm, hm']
  | x :: y :: l => simp [hl] at h

theorem set_comm {groups : List Group} (h : Single groups) {g g' : Group} (hg : g ∈ groups) (hg' : g' ∈ groups)
    (o : SetOptions) : Group.set (Group.set o g) g' = Group.set (Group.set o g') g := by
  cases g with
  | expiry e =>
    cases g' with
    | expiry e' => rw [eq_of_countP_le_one h.1 hg hg' rfl rfl]
    | condition k' => rfl
  | condition k =>
    cases g' with
    | expiry e' => rfl
    | condition k' => rw [eq_of_countP_le_one h.2 hg hg' rfl rfl]

theorem foldl_set_perm {groups groups' : List Group} (h : Single groups) (hp : groups.Perm groups') (o : SetOptions) :
    groups.foldl Group.set o = groups'.foldl Group.set o :=
  hp.foldl_eq' (fun _ hg _ hg' o => set_comm h hg hg' o) o

section Run

variable {c : Config} {h : Host} {name : Bytes} (hname : lowerString h.cases name = ascii "set") (s : Store c)
  (now : Readings)
include hname

theorem parse_set (args : List Bytes) : parse h.cases (name :: args) = some ⟨ascii "set", args⟩ := by
  rw [parse, hname, if_neg (by decide)]

theorem dispatch_set (args : List Bytes) : dispatch h (name :: args) =
    if 2 ≤ args.length then .run ⟨"set", 2, none, true, hSet h⟩ args
    else
      .refuse (.error (ascii "ERR wrong number of arguments for " ++ (quoted (ascii "set") ++ ascii " command"))) := by
  have hm : (⟨"set", 2, none, true, hSet h⟩ : Command) ∈ commands h := by simp [commands]
  have hfind : findCommand h (ascii "set") = some ⟨"set", 2, none, true, hSet h⟩ := findCommand_of_mem hm
  rw [dispatch, parse_set hname]
  simp only [hfind, Command.accepts, Option.all_none, Bool.and_true, decide_eq_true_eq]

/-- What `SET` comes to: the option loop decides whether the store is asked. -/
theorem run_set (key val : Bytes) (rest : List Bytes) : Handler.run s now (execute h (name :: key :: val :: rest)) =
    match setOptions h.cases ⟨0, false, .always⟩ rest with
    | .error msg => (.error (ascii "ERR " ++ msg), s, [])
    | .ok o => (reply (Handler.run s now (storeSet key val o)).1, (Handler.run s now (storeSet key val o)).2) := by
  have hd := dispatch_set hname (key :: val :: rest)
  rw [if_pos (by simp)] at hd
  rw [run_execute hd]
  simp only [hSet, List.drop_succ_cons, List.drop_zero]
  cases setOptions h.cases ⟨0, false, .always⟩ rest <;> rfl

theorem run_set_groups (key val : Bytes) {groups : List Group} (hs : Single groups) :
    Handler.run s now (execute h (name :: key :: val :: groups.flatMap Group.tokens)) =
      (reply (Handler.run s now (storeSet key val (groups.foldl Group.set ⟨0, false, .always⟩))).1,
        (Handler.run s now (storeSet key val (groups.foldl Group.set ⟨0, false, .always⟩))).2) := by
  rw [run_set hname, setOptions_groups h.cases (fits_start.mpr hs)]

theorem run_set_refused {args : List Bytes} (hg : ¬ Grammar args) :
    ∃ msg, Handler.run s now (execute h (name :: args)) = (.error msg, s, []) := by
  by_cases hlen : 2 ≤ args.length
  · obtain ⟨key, val, rest, rfl⟩ : ∃ key val rest, args = key :: val :: rest := by
      match args with
      | key :: val :: rest => exact ⟨key, val, rest, rfl⟩
    rw [run_set hname]
    cases ho : setOptions h.cases ⟨0, false, .always⟩ rest with
    | error msg => exact ⟨_, rfl⟩
    | ok o =>
      obtain ⟨groups, rfl, hfits⟩ := groups_of_setOptions h.cases ho
      exact absurd ⟨key, val, groups, rfl, hfits.single⟩ hg
  · have hd := dispatch_set hname args
    rw [if_neg hlen] at hd
    exact ⟨_, by rw [execute, hd]; rfl⟩

/-- `SET` accepts exactly its grammar, refuses everything else without a trace,
and the order of the groups does not matter. -/
theorem set_grammar (args : List Bytes) :
    (isError (Handler.run s now (execute h (name :: args))).1 = false ↔ Grammar args) ∧
      (¬ Grammar args → ∃ msg, Handler.run s now (execute h (name :: args)) = (.error msg, s, [])) ∧
      ∀ key val groups groups', Single groups → groups.Perm groups' →
        Handler.run s now (execute h (name :: key :: val :: groups.flatMap Group.tokens)) =
          Handler.run s now (execute h (name :: key :: val :: groups'.flatMap Group.tokens)) := by
  refine ⟨⟨fun hacc => ?_, ?_⟩, run_set_refused hname s now, fun key val groups groups' hs hp => ?_⟩
  · by_contra hg
    obtain ⟨msg, hrun⟩ := run_set_refused hname s now hg
    rw [hrun] at hacc
    cases hacc
  · rintro ⟨key, val, groups, rfl, hs⟩
    rw [run_set_groups hname s now key val hs]
    exact always_run (answered_storeSet key val _) s now
  · have hs' : Single groups' := ⟨by rw [← hp.countP_eq]; exact hs.1, by rw [← hp.countP_eq]; exact hs.2⟩
    rw [run_set_groups hname s now key val hs, run_set_groups hname s now key val hs', foldl_set_perm hs hp]

end Run

def tenMillis : Expiry where
  unit := millisecond
  keyword := ascii "pX"
  value := ascii "10"
  n := 10
  spelled := .inr ⟨by decide +kernel, rfl⟩
  parsed := by decide +kernel
  positive := by decide

def ifAbsent : Condition where
  mode := .nx
  keyword := ascii "Nx"
  spelled := .inl ⟨by decide +kernel, rfl⟩

theorem single_both : Single [.expiry tenMillis, .condition ifAbsent] := by
  constructor <;> exact le_rfl

theorem setBoth_in_any_order :
    isError (Handler.run (new twoShards) (frozen (instant 0))
      (execute host [ascii "SET", ascii "k", ascii "v", ascii "pX", ascii "10", ascii "Nx"])).1 = false ∧
    Handler.run (new twoShards) (frozen (instant 0))
        (execute host [ascii "SET", ascii "k", ascii "v", ascii "pX", ascii "10", ascii "Nx"]) =
      Handler.run (new twoShards) (frozen (instant 0))
        (execute host [ascii "SET", ascii "k", ascii "v", ascii "Nx", ascii "pX", ascii "10"]) := by
  have hname : lowerString host.cases (ascii "SET") = ascii "set" := by decide +kernel
  obtain ⟨hacc, -, hperm⟩ := set_grammar hname (new twoShards) (frozen (instant 0))
    [ascii "k", ascii "v", ascii "pX", ascii "10", ascii "Nx"]
  have hswap : [Group.expiry tenMillis, .condition ifAbsent].Perm [.condition ifAbsent, .expiry tenMillis] :=
    .swap _ _ []
  exact ⟨hacc.mpr ⟨ascii "k", ascii "v", _, rfl, single_both⟩, hperm (ascii "k") (ascii "v") _ _ single_both hswap⟩

end MemX.CommandSet
