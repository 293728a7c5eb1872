import MemX.CommandOutcome
import MemX.RespFrame

namespace MemX.CommandLines

open MachineInt DecimalText Clock StoreState StoreRules
open CommandProgram CommandHandlers CommandRegistry CommandWrites CommandOutcome RespWrite RespFrame TextCase

variable {c : Config} {h : Host} {α : Type}

def knownSubcommand (t : CaseTable) (sub : Bytes) : Bool :=
  [ascii "SETINFO", ascii "SETNAME", ascii "GETNAME", ascii "ID"].contains (toUpper t sub)

/-- The texts of a command line that an error reply quotes have no CR and no
LF: the name and the previews of the arguments of an unknown command, and an
unknown subcommand of CLIENT. -/
def Clean (h : Host) (tokens : List Bytes) : Prop :=
  match parse h.cases tokens with
  | none => True
  | some p =>
    match findCommand h p.name with
    | none => OneLine p.name ∧ ∀ a ∈ p.args.take 3, OneLine (a.take 128)
    | some cmd =>
      cmd.name = "client" → cmd.accepts p.args.length = true → knownSubcommand h.cases (arg p.args 0) = false →
        OneLine (arg p.args 0)

def FlatOutcome (o : Outcome) : Prop := Flat (reply o)

theorem flatOutcome_error {msg : Bytes} : FlatOutcome (.error msg) ↔ OneLine msg := by
  have herr : OneLine (ascii "ERR ") := oneLine_ascii String.toList_ofList rfl
  exact oneLine_append.trans (and_iff_right herr)

theorem flat_ok : FlatOutcome (.ok okText) := (oneLine_ascii String.toList_ofList rfl : OneLine (ascii "OK"))

theorem oneLine_text (e : StoreError) : OneLine e.text := by
  cases e <;> exact oneLine_ascii String.toList_ofList rfl

theorem oneLine_notInteger : OneLine notInteger := oneLine_ascii String.toList_ofList rfl

theorem oneLine_setOptions {t : CaseTable} {o : SetOptions} {rest : List Bytes} {msg : Bytes}
    (hr : setOptions t o rest = .error msg) : OneLine msg := by
  fun_induction setOptions t o rest with
  | case1 => cases hr
  | case6 o opt up _ v rest _ n _ _ unit ih => exact ih hr
  | case8 o opt rest up _ _ _ ih => exact ih hr
  | case10 o opt rest up _ _ _ _ ih => exact ih hr
  | _ =>
    cases hr
    exact oneLine_ascii String.toList_ofList rfl

theorem oneLine_scanOptions {t : CaseTable} {pattern : Bytes} {rest : List Bytes} {msg : Bytes}
    (hr : scanOptions t pattern rest = .error msg) : OneLine msg := by
  fun_induction scanOptions t pattern rest with
  | case1 => cases hr
  | case3 _ _ _ _ _ _ ih => exact ih hr
  | case7 _ _ _ _ _ _ _ _ _ _ ih => exact ih hr
  | _ =>
    cases hr
    exact oneLine_ascii String.toList_ofList rfl

theorem always_fail {msg : Bytes} (hm : OneLine msg) : Always FlatOutcome (fail msg) := flatOutcome_error.mpr hm

theorem always_storeSet (key val : Bytes) (o : SetOptions) : Always FlatOutcome (storeSet key val o) := by
  refine always_then _ fun done => ?_
  cases done with
  | false => trivial
  | true => exact always_then _ fun _ => always_then _ fun _ => flat_ok

theorem always_addTo (name : String) (logged : List Bytes) (key : Bytes) (delta : Int) :
    Always FlatOutcome (addTo name logged key delta) := by
  intro r
  cases r with
  | error e => exact always_fail (oneLine_text e)
  | ok n => trivial

theorem always_hAppend (args : List Bytes) : Always FlatOutcome (hAppend args) := by
  intro r
  cases r with
  | error e => exact always_fail (oneLine_text e)
  | ok n => trivial

theorem always_hDel (args : List Bytes) : Always FlatOutcome (hDel args) :=
  always_then _ fun _ => always_then _ fun _ => trivial

theorem always_flag (p : Handler Bool) (k : Handler Unit) :
    Always FlatOutcome (p >>= fun done => if done then k >>= fun _ => ok (.integer 1) else ok (.integer 0)) := by
  refine always_then _ fun done => ?_
  cases done with
  | false => trivial
  | true => exact always_then _ fun _ => trivial

theorem always_parsed {s : Bytes} {k : Int → Handler Outcome} (hk : ∀ n, Always FlatOutcome (k n)) :
    Always FlatOutcome (match parseInt s with | none => fail notInteger | some n => k n) := by
  cases parseInt s with
  | none => exact always_fail oneLine_notInteger
  | some n => exact hk n

theorem always_expireIn (unit : Int) (args : List Bytes) : Always FlatOutcome (expireIn unit args) := by
  refine always_parsed fun n => ?_
  by_cases hn : n ≤ 0
  · simp only [hn, ↓reduceIte]
    exact always_hDel _
  · simp only [hn, ↓reduceIte]
    exact always_flag _ _

theorem flat_bulkOrNull (v : Option Bytes) : Flat (bulkOrNull v) := by
  cases v <;> trivial

theorem always_getAll (keys : List Bytes) : Always FlatAll (getAll keys) := by
  induction keys with
  | nil => trivial
  | cons key keys ih => exact always_then _ fun v => always_bind ih fun rest hr => ⟨flat_bulkOrNull v, hr⟩

theorem flat_bulks (bs : List Bytes) : Flat (.array (bs.map .bulk)) :=
  flatAll_iff.mpr fun r hr => by
    obtain ⟨b, _, rfl⟩ := List.mem_map.mp hr
    trivial

theorem always_hScan (h : Host) (args : List Bytes) : Always FlatOutcome (hScan h args) := by
  unfold hScan
  cases parseInt (arg args 0) with
  | none => exact always_fail (oneLine_ascii String.toList_ofList rfl)
  | some cursor =>
    by_cases hc : cursor < 0
    · simp only [hc, ↓reduceIte]
      exact always_fail (oneLine_ascii String.toList_ofList rfl)
    · simp only [hc, ↓reduceIte]
      cases ho : scanOptions h.cases [] (args.drop 1) with
      | error msg => exact always_fail (oneLine_scanOptions ho)
      | ok pattern => exact always_then _ fun r => ⟨trivial, flat_bulks r.2, trivial⟩

/-- Every handler but that of CLIENT only replies with lines of its own. -/
theorem always_flat_handler (h : Host) (args : List Bytes) :
    ∀ cmd ∈ commands h, cmd.name ≠ "client" → Always FlatOutcome (cmd.handler args) := by
  simp only [commands, List.forall_mem_cons, ne_eq, String.reduceEq, not_false_eq_true, not_true_eq_false,
    forall_const, false_implies, true_and, List.not_mem_nil, implies_true, and_true]
  refine ⟨?ping, trivial, ?set, always_then _ fun v => flat_bulkOrNull v, always_hDel args,
    always_then _ fun _ => trivial, always_addTo _ _ _ _, always_addTo _ _ _ _, always_hAppend args, ?type,
    always_expireIn _ args, always_expireIn _ args, always_parsed fun _ => always_flag _ _,
    always_parsed fun _ => always_flag _ _, always_flag _ _, ?ttl,
    always_then _ fun _ => always_then _ fun _ => flat_ok,
    ?select, always_then _ fun _ => trivial, trivial, always_bind (always_getAll args) fun _ hr => hr, ?mset, ?msetnx,
    always_then _ fun v => always_then _ fun _ => flat_bulkOrNull v, always_flag _ _, ?strlen,
    always_parsed fun _ => always_addTo _ _ _ _, always_parsed fun _ => always_addTo _ _ _ _,
    always_then _ fun ks => flat_bulks ks, always_hScan h args⟩
  case ping =>
    cases args with
    | nil => exact (oneLine_ascii String.toList_ofList rfl : OneLine (ascii "PONG"))
    | cons a args => trivial
  case set =>
    unfold hSet
    cases ho : setOptions h.cases ⟨0, false, .always⟩ (args.drop 2) with
    | error msg => exact always_fail (oneLine_setOptions ho)
    | ok o => exact always_storeSet _ _ o
  case type =>
    intro v
    cases v with
    | none => exact (oneLine_ascii String.toList_ofList rfl : OneLine (ascii "none"))
    | some v => exact (oneLine_ascii String.toList_ofList rfl : OneLine (ascii "string"))
  case ttl =>
    refine always_then _ fun v => ?_
    cases v with
    | none => trivial
    | some rem =>
      by_cases hr : rem < 0
      · simp only [hr, ↓reduceIte]
        trivial
      · simp only [hr, ↓reduceIte]
        trivial
  case select =>
    unfold hSelect
    split
    · exact flat_ok
    · exact always_fail (oneLine_ascii String.toList_ofList rfl)
  case mset =>
    unfold hMSet
    split
    · exact always_fail (oneLine_ascii String.toList_ofList rfl)
    · exact always_then _ fun _ => always_then _ fun _ => flat_ok
  case msetnx =>
    unfold hMSetNX
    split
    · exact always_fail (oneLine_ascii String.toList_ofList rfl)
    · exact always_flag _ _
  case strlen =>
    intro v
    cases v <;> trivial

theorem oneLine_quoted {b : Bytes} : OneLine (quoted b) ↔ OneLine b := by
  have hq : OneLine (ascii "'") := oneLine_ascii String.toList_ofList rfl
  rw [quoted, oneLine_append, oneLine_append]
  exact (and_iff_right hq).trans (and_iff_left hq)

theorem oneLine_intercalate {sep : Bytes} (hs : OneLine sep) (l : List Bytes) :
    OneLine (sep.intercalate l) ↔ ∀ b ∈ l, OneLine b := by
  induction l with
  | nil => simp [List.intercalate, OneLine]
  | cons x l ih =>
    cases l with
    | nil => simp [List.intercalate]
    | cons y l =>
      have hsplit : sep.intercalate (x :: y :: l) = x ++ (sep ++ sep.intercalate (y :: l)) := by
        simp [List.intercalate]
      rw [hsplit, oneLine_append, oneLine_append, ih, List.forall_mem_cons (a := x)]
      exact and_congr_right fun _ => and_iff_right hs

theorem oneLine_unknownCommand {name : Bytes} {args : List Bytes} :
    OneLine (unknownCommand name args) ↔ OneLine name ∧ ∀ a ∈ args.take 3, OneLine (a.take 128) := by
  have hunknown : OneLine (ascii "ERR unknown command ") := oneLine_ascii String.toList_ofList rfl
  have hwith : OneLine (ascii ", with args beginning with: ") := oneLine_ascii String.toList_ofList rfl
  have hsep : OneLine (ascii ", ") := oneLine_ascii String.toList_ofList rfl
  have hname : OneLine (ascii "ERR unknown command " ++ quoted name) ↔ OneLine name := by
    rw [oneLine_append, oneLine_quoted]
    exact and_iff_right hunknown
  cases args with
  | nil => simpa [unknownCommand] using hname
  | cons a args =>
    simp only [unknownCommand, oneLine_append, oneLine_intercalate hsep, List.forall_mem_map, preview, oneLine_quoted]
    simp only [hunknown, hwith, true_and]

theorem flat_hClient (h : Host) (args : List Bytes) (s : Store c) (now : Readings) :
    FlatOutcome (Handler.run s now (hClient h args)).1 ↔
      (knownSubcommand h.cases (arg args 0) = false → OneLine (arg args 0)) := by
  have hfor : OneLine (ascii " for 'client' command") := oneLine_ascii String.toList_ofList rfl
  have hunknown : OneLine (ascii "unknown subcommand ") := oneLine_ascii String.toList_ofList rfl
  simp only [hClient, knownSubcommand]
  split_ifs with h₁ h₂ h₃
  · exact iff_of_true flat_ok (by rcases h₁ with h₁ | h₁ <;> simp [h₁])
  · exact iff_of_true trivial (by simp [h₂])
  · exact iff_of_true trivial (by simp [h₃])
  · have hno : [ascii "SETINFO", ascii "SETNAME", ascii "GETNAME", ascii "ID"].contains
        (toUpper h.cases (arg args 0)) = false := by
      simp only [List.contains_cons, List.contains_nil, Bool.or_false, Bool.or_eq_false_iff, beq_eq_false_iff_ne]
      exact ⟨fun he => h₁ (Or.inl he), fun he => h₁ (Or.inr he), h₂, h₃⟩
    simp only [hno, forall_const, fail, Handler.run, flatOutcome_error, oneLine_append, oneLine_quoted]
    exact (and_iff_right hunknown).trans (and_iff_left hfor)

theorem run_reply (p : Handler Outcome) (s : Store c) (now : Readings) :
    (Handler.run s now (p >>= fun o => .pure (reply o))).1 = reply (Handler.run s now p).1 := by
  obtain ⟨now', hb⟩ := CommandEffect.run_bind s now p (fun o => .pure (reply o))
  rw [hb]
  rfl

theorem oneLine_name (h : Host) : ∀ cmd ∈ commands h, OneLine (ascii cmd.name) := by
  simp only [commands, List.forall_mem_cons, List.not_mem_nil, false_implies, implies_true, and_true]
  and_intros <;> exact oneLine_ascii String.toList_ofList rfl

theorem handler_client {cmd : Command} (hm : cmd ∈ commands h) (hc : cmd.name = "client") :
    cmd.handler = hClient h := by
  have hmem : (⟨"client", 1, none, false, hClient h⟩ : Command) ∈ commands h := by simp [commands]
  have hfind := findCommand_of_mem hm
  rw [hc, findCommand_of_mem hmem] at hfind
  cases hfind
  rfl

/-- The reply of a command has no line break inside a line if and only if the
command is clean, in every state and at every reading. -/
theorem flat_execute_iff (h : Host) (tokens : List Bytes) (s : Store c) (now : Readings) :
    Flat (Handler.run s now (execute h tokens)).1 ↔ Clean h tokens := by
  simp only [execute, dispatch, Clean]
  cases hp : parse h.cases tokens with
  | none => exact iff_of_true ((oneLine_ascii String.toList_ofList rfl : OneLine (ascii "ERR empty command"))) trivial
  | some p =>
    cases hf : findCommand h p.name with
    | none =>
      simp only [hf]
      exact oneLine_unknownCommand
    | some cmd =>
      have hm := findCommand_mem hf
      by_cases ha : cmd.accepts p.args.length = true
      · simp only [hf, ha, ↓reduceIte, forall_const, run_reply]
        by_cases hc : cmd.name = "client"
        · simp only [hc, forall_const, handler_client hm hc]
          exact flat_hClient h p.args s now
        · exact iff_of_true (always_run (always_flat_handler h p.args cmd hm hc) s now) fun he => absurd he hc
      · simp only [hf, ha, Bool.false_eq_true, ↓reduceIte, false_implies, implies_true, iff_true]
        have hname : ascii cmd.name = p.name := by simpa using List.find?_some hf
        have hwrong : OneLine (ascii "ERR wrong number of arguments for ") := oneLine_ascii String.toList_ofList rfl
        have hcommand : OneLine (ascii " command") := oneLine_ascii String.toList_ofList rfl
        refine oneLine_append.mpr ⟨hwrong, oneLine_append.mpr ⟨oneLine_quoted.mpr ?_, hcommand⟩⟩
        exact hname ▸ oneLine_name h cmd hm

end MemX.CommandLines
