import MemX.CommandOutcome

namespace MemX.ServerConn

open DecimalText Clock StoreState CommandProgram CommandHandlers CommandRegistry RespWrite TextCase

variable {c c' : Config}

abbrev Tokens := { tokens : List Bytes // tokens ≠ [] }

structure World (c : Config) where
  store : Store c
  log : List (List Bytes)

/-- What a connection did with a command: the gate answered it, or it was
executed. -/
inductive Response
  | gated (r : Reply)
  | executed (r : Reply)

def Response.reply : Response → Reply
  | .gated r => r
  | .executed r => r

def Response.isGated : Response → Bool
  | .gated _ => true
  | .executed _ => false

/-- The gate before a connection is authenticated: its reply, and whether the
connection is authenticated from now on. -/
def gate (t : CaseTable) (requirePass : Bytes) (tokens : Tokens) : Reply × Bool :=
  if toLower t (tokens.1.head tokens.2) ≠ ascii "auth" then (.error (ascii "NOAUTH Authentication required."), false)
  else if tokens.1.length ≠ 2 then (.error (ascii "ERR wrong number of arguments for 'auth' command"), false)
  else if arg tokens.1 1 = requirePass then (okText, true)
  else (.error (ascii "WRONGPASS invalid username-password pair or user is disabled."), false)

def respond (h : Host) (requirePass : Bytes) (now : Readings) (authed : Bool) (w : World c) (tokens : Tokens) :
    Response × Bool × World c :=
  if authed then
    let r := Handler.run w.store now (execute h tokens.1)
    (.executed r.1, true, ⟨r.2.1, w.log ++ r.2.2⟩)
  else
    let r := gate h.cases requirePass tokens
    (.gated r.1, r.2, w)

/-- A command that a connection receives: what the other connections do before
it, and the readings it takes. -/
structure Turn (c : Config) where
  meanwhile : World c → World c
  now : Readings
  tokens : Tokens

/-- The turns of one connection: its responses, whether it is authenticated in
the end, and the world it leaves. -/
def session (h : Host) (requirePass : Bytes) (authed : Bool) (w : World c) :
    List (Turn c) → List Response × Bool × World c
  | [] => ([], authed, w)
  | turn :: turns =>
    let r := respond h requirePass turn.now authed (turn.meanwhile w) turn.tokens
    let rest := session h requirePass r.2.1 r.2.2 turns
    (r.1 :: rest.1, rest.2)

def connect (h : Host) (requirePass : Bytes) (w : World c) (turns : List (Turn c)) : List Response × Bool × World c :=
  session h requirePass (requirePass = []) w turns

def sent (rs : List Response) : Bytes := rs.flatMap fun r => writeTo r.reply

def Authenticates (t : CaseTable) (requirePass : Bytes) (tokens : Tokens) : Prop :=
  tokens.1.length = 2 ∧ toLower t (tokens.1.head tokens.2) = ascii "auth" ∧ arg tokens.1 1 = requirePass

theorem gate_authenticates_iff (t : CaseTable) (requirePass : Bytes) (tokens : Tokens) :
    (gate t requirePass tokens).2 = true ↔ Authenticates t requirePass tokens := by
  unfold gate Authenticates
  split_ifs with h₁ h₂ h₃
  · simp [h₁]
  · simp [h₂]
  · simpa using ⟨not_not.mp h₂, not_not.mp h₁, h₃⟩
  · simp [h₃]

section Gated

variable {h : Host} {requirePass : Bytes} {turns : List (Turn c)}
  (hno : ∀ turn ∈ turns, ¬ Authenticates h.cases requirePass turn.tokens)

include hno

theorem session_gated (w : World c) :
    session h requirePass false w turns =
      (turns.map fun turn => .gated (gate h.cases requirePass turn.tokens).1, false,
        turns.foldl (fun w turn => turn.meanwhile w) w) := by
  induction turns generalizing w with
  | nil => rfl
  | cons turn turns ih =>
    obtain ⟨hturn, hno⟩ := List.forall_mem_cons.mp hno
    have hg : (gate h.cases requirePass turn.tokens).2 = false := by
      simpa using (gate_authenticates_iff _ _ _).not.mpr hturn
    simp only [session, respond, Bool.false_eq_true, ↓reduceIte, hg, ih hno, List.map_cons, List.foldl_cons]

end Gated

/-- A command that is executed comes after one that authenticates. -/
theorem session_executed {h : Host} {requirePass : Bytes} {w : World c} {turns : List (Turn c)} {n : Nat} {r : Reply}
    (hr : (session h requirePass false w turns).1[n]? = some (.executed r)) :
    ∃ turn ∈ turns.take n, Authenticates h.cases requirePass turn.tokens := by
  induction turns generalizing w n with
  | nil => simp [session] at hr
  | cons turn turns ih =>
    by_cases ha : Authenticates h.cases requirePass turn.tokens
    · cases n with
      | zero => simp [session, respond] at hr
      | succ n => exact ⟨turn, by simp, ha⟩
    · have hg : (gate h.cases requirePass turn.tokens).2 = false := by
        simpa using (gate_authenticates_iff _ _ _).not.mpr ha
      cases n with
      | zero => simp [session, respond] at hr
      | succ n =>
        simp only [session, respond, Bool.false_eq_true, ↓reduceIte, hg, List.getElem?_cons_succ] at hr
        obtain ⟨turn', hm, ha'⟩ := ih hr
        exact ⟨turn', by simp [hm], ha'⟩

/-- With a password set, no command of a connection is executed before the
right one was received. Until then the connection leaves the store and the log
to the others, answers each command once, and writes bytes that do not depend
on what any store contains. -/
theorem auth_gate (h : Host) {requirePass : Bytes} (hpass : requirePass ≠ []) (w : World c) (turns : List (Turn c)) :
    (∀ n r, (connect h requirePass w turns).1[n]? = some (.executed r) →
      ∃ turn ∈ turns.take n, Authenticates h.cases requirePass turn.tokens) ∧
    ((∀ turn ∈ turns, ¬ Authenticates h.cases requirePass turn.tokens) →
      (connect h requirePass w turns).2.2 = turns.foldl (fun w turn => turn.meanwhile w) w ∧
      (connect h requirePass w turns).1.length = turns.length ∧
      (∀ r ∈ (connect h requirePass w turns).1, r.isGated = true) ∧
      ∀ (c' : Config) (w' : World c') (turns' : List (Turn c')), turns'.map Turn.tokens = turns.map Turn.tokens →
        sent (connect h requirePass w' turns').1 = sent (connect h requirePass w turns).1) := by
  have hstart : decide (requirePass = []) = false := by simpa using hpass
  unfold connect
  rw [hstart]
  refine ⟨fun n r => session_executed, fun hno => ?_⟩
  rw [session_gated hno]
  refine ⟨rfl, by simp, by simp [Response.isGated], fun c' w' turns' htokens => ?_⟩
  have hno' : ∀ turn ∈ turns', ¬ Authenticates h.cases requirePass turn.tokens := by
    intro turn hturn
    have hmem : turn.tokens ∈ turns.map Turn.tokens := htokens ▸ List.mem_map_of_mem hturn
    obtain ⟨turn', hm, heq⟩ := List.mem_map.mp hmem
    rw [← heq]
    exact hno turn' hm
  have hreplies : ∀ {c : Config} (turns : List (Turn c)),
      (turns.map fun turn => Response.gated (gate h.cases requirePass turn.tokens).1) =
        (turns.map Turn.tokens).map fun tokens => .gated (gate h.cases requirePass tokens).1 := by
    intro c turns
    rw [List.map_map]
    rfl
  simp only [session_gated hno', hreplies, htokens]

def aloneTurn (name : String) (args : List Bytes) : Turn c := ⟨id, frozen (instant 0), ⟨ascii name :: args, by simp⟩⟩

def refusedTurns : List (Turn c) :=
  [aloneTurn "SET" [ascii "k", ascii "v"], aloneTurn "AUTH" [], aloneTurn "Auth" [ascii "pwd"],
    aloneTurn "GET" [ascii "k"]]

instance (t : CaseTable) (requirePass : Bytes) (tokens : Tokens) : Decidable (Authenticates t requirePass tokens) :=
  inferInstanceAs (Decidable (_ ∧ _ ∧ _))

def emptyWorld : World twoShards := ⟨new twoShards, []⟩

def fullWorld : World twoShards :=
  ⟨(Handler.run (new twoShards) (frozen (instant 0)) (execute host [ascii "SET", ascii "k", ascii "v"])).2.1,
    [[ascii "SET", ascii "k", ascii "v"]]⟩

theorem refusedTurns_gated :
    (connect host (ascii "pw") fullWorld refusedTurns).2.2 = fullWorld ∧
      sent (connect host (ascii "pw") emptyWorld refusedTurns).1 =
        sent (connect host (ascii "pw") fullWorld refusedTurns).1 := by
  have hno : ∀ turn ∈ (refusedTurns : List (Turn twoShards)), ¬ Authenticates host.cases (ascii "pw") turn.tokens := by
    decide +kernel
  obtain ⟨hworld, _, _, hsame⟩ := (auth_gate host (by decide) fullWorld refusedTurns).2 hno
  exact ⟨hworld, hsame _ emptyWorld refusedTurns rfl⟩

end MemX.ServerConn
