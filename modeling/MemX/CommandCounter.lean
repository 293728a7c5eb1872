import MemX.CommandEffect

namespace MemX.CommandCounter

open MachineInt DecimalText Clock StoreState StoreRules StoreOps StoreLookup CommandProgram CommandHandlers
open CommandRegistry CommandWrites CommandEffect RespWrite

variable {c : Config} {h : Host} {tokens args : List Bytes} {cmd : Command}

def amount (name : String) (args : List Bytes) : Option Int :=
  match name with
  | "incr" => some 1
  | "decr" => some (-1)
  | "incrby" => parseInt (arg args 1)
  | "decrby" => (parseInt (arg args 1)).map (-·)
  | _ => none

/-- The key is missing, which counts as 0, or holds a number. -/
def Counts (s : Store c) (t : Instant) (key : Bytes) (v : Int) : Prop :=
  view s t key = none ∧ v = 0 ∨ ∃ e, view s t key = some e ∧ parseInt e.val = some v

/-- The outcome of a command that should leave `n` under a key: it replies with
`n` and stores its digits, or, if `n` is no 64-bit integer, it refuses and
changes neither what can be read nor the log. -/
def ExactOrRefused (s : Store c) (key : Bytes) (n : Int) (r : Reply × Store c × List (List Bytes)) : Prop :=
  (InRange n ∧ r.1 = .integer n ∧ (lookup r.2.1 key).map Entry.val = some (formatInt n)) ∨
    (¬ InRange n ∧ (∃ msg, r.1 = .error msg) ∧ (∀ t k, view r.2.1 t k = view s t k) ∧ r.2.2 = [])

theorem run_addTo {s : Store c} {now : Readings} {key : Bytes} {v : Int} (hv : Counts s (now 0) key v)
    (name : String) (logged : List Bytes) (delta : Int) :
    ∃ s', Handler.run s now (addTo name logged key delta) =
        (.ok (.integer (wrap64 (v + delta))), s', [ascii name :: logged]) ∧
      (lookup s' key).map Entry.val = some (formatInt (wrap64 (v + delta))) := by
  have hans : (onKey (incrBy delta) s now key).1 = .ok (wrap64 (v + delta)) := by
    rw [onKey_answer]
    obtain ⟨hnone, rfl⟩ | ⟨e, hsome, hp⟩ := hv
    · rw [hnone]
      rfl
    · simp [hsome, answer, incrBy, hp]
  have hval : (lookup (onKey (incrBy delta) s now key).2 key).map Entry.val =
      some (formatInt (wrap64 (v + delta))) := by
    rw [onKey_lookup, if_pos rfl]
    obtain ⟨hnone, rfl⟩ | ⟨e, hsome, hp⟩ := hv
    · rw [hnone]
      rfl
    · simp [hsome, next, incrBy, hp, Effect.entry, plain]
  refine ⟨(onKey (incrBy delta) s now key).2, ?_, hval⟩
  have hexec : (Section.incrBy key delta).exec s now =
      (.ok (wrap64 (v + delta)), (onKey (incrBy delta) s now key).2) := Prod.ext hans rfl
  change Handler.run s now (.call (.incrBy key delta) _) = _
  rw [Handler.run, hexec]
  rfl

theorem wrap64_add_neg (v d : Int) : wrap64 (v + wrap64 (-d)) = wrap64 (v + -d) := by
  rw [wrap64_eq_iff]
  unfold wrap64
  omega

theorem handler_counter (hm : cmd ∈ commands h) {d : Int} (ha : amount cmd.name args = some d) :
    ∃ name logged delta, cmd.handler args = addTo name logged (arg args 0) delta ∧
      ∀ v, wrap64 (v + delta) = wrap64 (v + d) := by
  unfold amount at ha
  split at ha
  · rename_i hname
    cases ha
    obtain rfl : cmd = ⟨"incr", 1, some 1, true, hIncr⟩ := command_unique hm (by simp [commands]) hname
    exact ⟨_, _, _, rfl, fun _ => rfl⟩
  · rename_i hname
    cases ha
    obtain rfl : cmd = ⟨"decr", 1, some 1, true, hDecr⟩ := command_unique hm (by simp [commands]) hname
    exact ⟨_, _, _, rfl, fun _ => rfl⟩
  · rename_i hname
    obtain rfl : cmd = ⟨"incrby", 2, some 2, true, hIncrBy⟩ := command_unique hm (by simp [commands]) hname
    refine ⟨"INCRBY", [arg args 0, arg args 1], d, ?_, fun _ => rfl⟩
    simp only [hIncrBy, ha]
  · rename_i hname
    obtain rfl : cmd = ⟨"decrby", 2, some 2, true, hDecrBy⟩ := command_unique hm (by simp [commands]) hname
    obtain ⟨n, hn, rfl⟩ := Option.map_eq_some_iff.mp ha
    refine ⟨"DECRBY", [arg args 0, arg args 1], wrap64 (-n), ?_, fun v => wrap64_add_neg v n⟩
    simp only [hDecrBy, hn]
  · cases ha

theorem run_counter (hd : dispatch h tokens = .run cmd args) {d : Int} (ha : amount cmd.name args = some d)
    {s : Store c} {now : Readings} {v : Int} (hv : Counts s (now 0) (arg args 0) v) :
    (Handler.run s now (execute h tokens)).1 = .integer (wrap64 (v + d)) ∧
      (lookup (Handler.run s now (execute h tokens)).2.1 (arg args 0)).map Entry.val =
        some (formatInt (wrap64 (v + d))) := by
  obtain ⟨name, logged, delta, hhandler, hwrap⟩ := handler_counter (dispatch_run hd).1 ha
  obtain ⟨s', hrun, hval⟩ := run_addTo hv name logged delta
  rw [hwrap] at hrun hval
  rw [run_execute hd, hhandler, hrun]
  exact ⟨rfl, hval⟩

/-- A counter command is exact or refused if and only if the sum is a 64-bit
integer. -/
theorem counter_exact_iff (hd : dispatch h tokens = .run cmd args) {d : Int} (ha : amount cmd.name args = some d)
    {s : Store c} {now : Readings} {v : Int} (hv : Counts s (now 0) (arg args 0) v) :
    ExactOrRefused s (arg args 0) (v + d) (Handler.run s now (execute h tokens)) ↔ InRange (v + d) := by
  obtain ⟨hreply, hval⟩ := run_counter hd ha hv
  constructor
  · rintro (⟨hr, _⟩ | ⟨_, ⟨msg, hmsg⟩, _⟩)
    · exact hr
    · rw [hreply] at hmsg
      cases hmsg
  · intro hr
    rw [wrap64_of_inRange hr] at hreply hval
    exact .inl ⟨hr, hreply, hval⟩

theorem dispatch_incr : dispatch host [ascii "INCR", ascii "k"] =
    .run ⟨"incr", 1, some 1, true, hIncr⟩ [ascii "k"] := rfl

theorem incr_missing_exact : ExactOrRefused (new twoShards) (ascii "k") (0 + 1)
    (Handler.run (new twoShards) (frozen (instant 0)) (execute host [ascii "INCR", ascii "k"])) :=
  (counter_exact_iff dispatch_incr rfl (.inl ⟨by decide +kernel, rfl⟩)).mpr (by decide)

def fullCounter : Store twoShards :=
  (Handler.run (new twoShards) (frozen (instant 0))
    (execute host [ascii "SET", ascii "k", ascii "9223372036854775807"])).2.1

/-- `INCR` at the greatest 64-bit integer replies with the least one, with no
error. -/
theorem incr_fullCounter_wraps : Counts fullCounter (instant 0) (ascii "k") 9223372036854775807 ∧
    (Handler.run fullCounter (frozen (instant 0)) (execute host [ascii "INCR", ascii "k"])).1 =
      .integer (-9223372036854775808) ∧
    ¬ ExactOrRefused fullCounter (ascii "k") (9223372036854775807 + 1)
      (Handler.run fullCounter (frozen (instant 0)) (execute host [ascii "INCR", ascii "k"])) := by
  have hc : Counts fullCounter (instant 0) (ascii "k") 9223372036854775807 :=
    .inr ⟨⟨ascii "9223372036854775807", 0⟩, by decide +kernel, by decide +kernel⟩
  have hr : (Handler.run fullCounter (frozen (instant 0)) (execute host [ascii "INCR", ascii "k"])).1 =
      .integer (wrap64 (9223372036854775807 + 1)) := (run_counter dispatch_incr rfl hc).1
  refine ⟨hc, hr, ?_⟩
  rintro (⟨hin, _⟩ | ⟨_, ⟨msg, hmsg⟩, _⟩)
  · revert hin
    decide
  · rw [hr] at hmsg
    cases hmsg

end MemX.CommandCounter
