import MemX.CommandEffect
import MemX.TextFold

namespace MemX.CommandNames

open DecimalText Clock StoreState TextCase TextFold RespWrite CommandProgram CommandHandlers CommandRegistry

variable {h : Host} {name name' : Bytes}

def HasUpper (name : Bytes) : Prop := name.any isUpper = true

instance (name : Bytes) : Decidable (HasUpper name) := inferInstanceAs (Decidable (_ = _))

theorem lowerString_upper (t : CaseTable) (hu : HasUpper name) : lowerString t name = toLower t name := if_pos hu

theorem lowerString_not_upper (t : CaseTable) (hu : ¬ HasUpper name) : lowerString t name = name := if_neg hu

theorem map_lowerByte_of_not_upper (hu : ¬ HasUpper name) : name.map lowerByte = name := by
  refine (List.map_congr_left fun b hb => ?_).trans (List.map_id name)
  refine lowerByte_of_not_upper (Bool.not_eq_true _ ▸ fun hb' => hu ?_)
  exact List.any_eq_true.mpr ⟨b, hb, hb'⟩

theorem lowerString_eq_toLower_iff (t : CaseTable) (name : Bytes) :
    lowerString t name = toLower t name ↔ HasUpper name ∨ Steady t name := by
  by_cases hu : HasUpper name
  · exact iff_of_true (lowerString_upper t hu) (.inl hu)
  · rw [lowerString_not_upper t hu, eq_comm, toLower_eq_self_iff]
    exact ⟨.inr, fun h => h.resolve_left hu⟩

theorem lowerString_mixed_iff (t : CaseTable) (hr : Recased name name') (hu : HasUpper name) (hu' : ¬ HasUpper name') :
    lowerString t name = lowerString t name' ↔ Steady t (name.map lowerByte) := by
  have hlow : name.map lowerByte = name' := hr.trans (map_lowerByte_of_not_upper hu')
  rw [lowerString_upper t hu, lowerString_not_upper t hu', toLower_recased t hr, toLower_eq_self_iff, hlow]

theorem lowerString_recased_iff (t : CaseTable) (hr : Recased name name') :
    lowerString t name = lowerString t name' ↔
      name = name' ∨ (HasUpper name ∧ HasUpper name') ∨ Steady t (name.map lowerByte) := by
  by_cases hu : HasUpper name
  · by_cases hu' : HasUpper name'
    · rw [lowerString_upper t hu, lowerString_upper t hu', toLower_recased t hr]
      exact iff_of_true rfl (.inr (.inl ⟨hu, hu'⟩))
    · rw [lowerString_mixed_iff t hr hu hu']
      refine ⟨fun h => .inr (.inr h), ?_⟩
      rintro (rfl | ⟨-, h⟩ | h)
      · exact absurd hu hu'
      · exact absurd h hu'
      · exact h
  · by_cases hu' : HasUpper name'
    · rw [eq_comm, lowerString_mixed_iff t hr.symm hu' hu, ← show name.map lowerByte = _ from hr]
      refine ⟨fun h => .inr (.inr h), ?_⟩
      rintro (rfl | ⟨h, -⟩ | h)
      · exact absurd hu' hu
      · exact absurd h hu
      · exact h
    · have heq : name = name' :=
        (map_lowerByte_of_not_upper hu).symm.trans (hr.trans (map_lowerByte_of_not_upper hu'))
      rw [heq]
      exact iff_of_true rfl (.inl rfl)

theorem parse_eq_iff (t : CaseTable) (args : List Bytes) :
    parse t (name :: args) = parse t (name' :: args) ↔ lowerString t name = lowerString t name' := by
  simp only [parse]
  constructor
  · intro heq
    split_ifs at heq with h₁ h₂ h₂
    · rw [h₁, h₂]
    · exact congrArg Parsed.name (Option.some.inj heq)
  · intro heq
    rw [heq]

/-- Two spellings are the same command, and the same effect and reply. -/
def SameCommand (h : Host) (name name' : Bytes) (args : List Bytes) : Prop :=
  parse h.cases (name :: args) = parse h.cases (name' :: args) ∧
    ∀ (c : Config) (s : Store c) (now : Readings),
      Handler.run s now (execute h (name :: args)) = Handler.run s now (execute h (name' :: args))

theorem execute_of_parse {tokens tokens' : List Bytes} (hp : parse h.cases tokens = parse h.cases tokens') :
    execute h tokens = execute h tokens' := by
  rw [execute, execute, dispatch, dispatch, hp]

/-- Two spellings of a name are the same command if and only if they are equal,
or both have a capital, or the name is steady beyond ASCII; and the two paths
of the parser agree on a name if and only if it has a capital or is steady. -/
theorem name_case_iff (h : Host) (hr : Recased name name') (args : List Bytes) :
    (SameCommand h name name' args ↔
      name = name' ∨ (HasUpper name ∧ HasUpper name') ∨ Steady h.cases (name.map lowerByte)) ∧
    (lowerString h.cases name = toLower h.cases name ↔ HasUpper name ∨ Steady h.cases name) := by
  refine ⟨?_, lowerString_eq_toLower_iff h.cases name⟩
  rw [← lowerString_recased_iff h.cases hr, ← parse_eq_iff h.cases args]
  refine ⟨fun hs => hs.1, fun hp => ⟨hp, fun c s now => ?_⟩⟩
  rw [execute_of_parse hp]

theorem get_same_command : SameCommand host (ascii "GeT") (ascii "get") [ascii "k"] :=
  (name_case_iff host (by decide +kernel) [ascii "k"]).1.mpr (.inr (.inr (by decide +kernel)))

/-- `keys` with a Kelvin sign, which has no capital of ASCII. -/
def kelvinKeys : Bytes := [0xE2, 0x84, 0xAA] ++ ascii "eys"

/-- The Kelvin sign is lowered to a `k` only beside an ASCII capital. -/
theorem kelvinKeys_dispatched_by_case : Recased kelvinKeys ([0xE2, 0x84, 0xAA] ++ ascii "EYS") ∧
    parse asciiTable [kelvinKeys, ascii "*"] = some ⟨kelvinKeys, [ascii "*"]⟩ ∧
    parse asciiTable [[0xE2, 0x84, 0xAA] ++ ascii "EYS", ascii "*"] = some ⟨ascii "keys", [ascii "*"]⟩ ∧
    (Handler.run (new twoShards) (frozen (instant 0)) (execute host [kelvinKeys, ascii "*"])).1 =
      .error (unknownCommand kelvinKeys [ascii "*"]) ∧
    (Handler.run (new twoShards) (frozen (instant 0))
      (execute host [[0xE2, 0x84, 0xAA] ++ ascii "EYS", ascii "*"])).1 = .array [] := by
  have hfast : lowerString asciiTable kelvinKeys = kelvinKeys := by decide +kernel
  have hslow : lowerString asciiTable ([0xE2, 0x84, 0xAA] ++ ascii "EYS") = ascii "keys" := by decide +kernel
  have hp : parse asciiTable [kelvinKeys, ascii "*"] = some ⟨kelvinKeys, [ascii "*"]⟩ := by
    rw [parse, hfast, if_neg (by decide)]
  have hp' : parse asciiTable [[0xE2, 0x84, 0xAA] ++ ascii "EYS", ascii "*"] = some ⟨ascii "keys", [ascii "*"]⟩ := by
    rw [parse, hslow, if_neg (by decide)]
  have hnone : findCommand host kelvinKeys = none := Option.isNone_iff_eq_none.mp (by decide +kernel)
  have hkeys : findCommand host (ascii "keys") = some ⟨"keys", 1, some 1, false, hKeys⟩ := rfl
  refine ⟨by decide +kernel, hp, hp', ?_, ?_⟩
  · rw [execute, dispatch, show parse host.cases _ = _ from hp]
    simp only [hnone]
    rfl
  · rw [execute, dispatch, show parse host.cases _ = _ from hp']
    simp only [hkeys]
    rfl

end MemX.CommandNames
