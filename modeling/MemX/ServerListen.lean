import MemX.DecimalText
import MemX.EscapedText

namespace MemX.ServerListen

open MachineInt DecimalText EscapedText

inductive AddrError
  | missingPort
  | tooManyColons
  | missingBracket
  | unexpectedOpen
  | unexpectedClose
deriving DecidableEq

inductive ListenError
  | listen (msg : Bytes)
  | address (e : AddrError)
  | port (text : Bytes)
deriving DecidableEq

def splitHostPort (s : Bytes) : Except AddrError (Bytes × Bytes) :=
  match cutLast 58 s with
  | none => .error .missingPort
  | some (front, port) =>
    if s.head? = some 91 then
      match cutFirst 93 s with
      | none => .error .missingBracket
      | some (inner, rest) =>
        if rest = [] then .error .missingPort
        -- the first closing bracket has to stand right before the last colon
        else if front = inner ++ [93] then
          if (s.drop 1).contains 91 then .error .unexpectedOpen
          else if rest.contains 93 then .error .unexpectedClose
          else .ok (inner.drop 1, port)
        else if rest.head? = some 58 then .error .tooManyColons
        else .error .missingPort
    else if front.contains 58 then .error .tooManyColons
    else if s.contains 91 then .error .unexpectedOpen
    else if s.contains 93 then .error .unexpectedClose
    else .ok (front, port)

abbrev Listen := Nat → Bytes → Except Bytes Bytes

variable (listen : Listen)

def nextAddr (host : Bytes) (port : Int) (i : Nat) : Bytes := host ++ 58 :: formatInt (wrap64 (port + i + 1))

/-- The loop of `listenWithRetry`; its own `err` is out of reach behind it. -/
def retryLoop (host : Bytes) (port : Int) (i : Nat) : Nat → Option Bytes
  | 0 => none
  | n + 1 =>
    match listen (i + 1) (nextAddr host port i) with
    | .ok addr => some addr
    | .error _ => retryLoop host port (i + 1) n

/-- The address and the error that the caller gets. After the loop `err` is
still what `Atoi` has left there. -/
def listenWithRetry (addr : Bytes) (maxRetries : Nat) : Option Bytes × Option ListenError :=
  match listen 0 addr with
  | .ok bound => (some bound, none)
  | .error msg =>
    if maxRetries = 0 then (none, some (.listen msg))
    else
      match splitHostPort addr with
      | .error e => (none, some (.address e))
      | .ok (host, portText) =>
        match parseInt portText with
        | none => (none, some (.port portText))
        | some port => (retryLoop listen host port 0 maxRetries, none)

inductive Startup
  | serves (addr : Bytes)
  | exits (e : ListenError)
  | panics
deriving DecidableEq

def startup : Option Bytes × Option ListenError → Startup
  | (_, some e) => .exits e
  | (some addr, none) => .serves addr
  | (none, none) => .panics

def Refused (n : Nat) (addr : Bytes) : Prop := ∃ msg, listen n addr = .error msg

theorem retryLoop_eq_none_iff {host : Bytes} {port : Int} {i n : Nat} :
    retryLoop listen host port i n = none ↔ ∀ k, i ≤ k → k < i + n → Refused listen (k + 1) (nextAddr host port k) := by
  induction n generalizing i with
  | zero => exact iff_of_true rfl fun k _ _ => by omega
  | succ n ih =>
    rw [retryLoop]
    cases hl : listen (i + 1) (nextAddr host port i) with
    | ok addr =>
      refine iff_of_false (by simp) fun h => ?_
      obtain ⟨msg, hmsg⟩ := h i le_rfl (by omega)
      rw [hl] at hmsg
      cases hmsg
    | error msg =>
      rw [ih]
      refine ⟨fun h k hk hlt => ?_, fun h k hk hlt => h k (by omega) (by omega)⟩
      obtain rfl | hk := Nat.eq_or_lt_of_le hk
      · exact ⟨msg, hl⟩
      · exact h k hk (by omega)

theorem retryLoop_eq_some {host : Bytes} {port : Int} {i n : Nat} {addr : Bytes}
    (h : retryLoop listen host port i n = some addr) :
    ∃ k, i ≤ k ∧ k < i + n ∧ listen (k + 1) (nextAddr host port k) = .ok addr ∧
      ∀ j, i ≤ j → j < k → Refused listen (j + 1) (nextAddr host port j) := by
  induction n generalizing i with
  | zero => cases h
  | succ n ih =>
    rw [retryLoop] at h
    cases hl : listen (i + 1) (nextAddr host port i) with
    | ok bound =>
      rw [hl] at h
      cases h
      exact ⟨i, le_rfl, by omega, hl, fun j hj hlt => by omega⟩
    | error msg =>
      rw [hl] at h
      obtain ⟨k, hik, hlt, hk, hbefore⟩ := ih h
      refine ⟨k, by omega, by omega, hk, fun j hj hjk => ?_⟩
      obtain rfl | hj := Nat.eq_or_lt_of_le hj
      · exact ⟨msg, hl⟩
      · exact hbefore j hj hjk

/-- An address that leads to the loop: a host and a port in decimal. -/
def Splits (addr host : Bytes) (port : Int) : Prop :=
  ∃ text, splitHostPort addr = .ok (host, text) ∧ parseInt text = some port

variable {listen}

theorem listenWithRetry_loop {addr host : Bytes} {port : Int} {maxRetries : Nat} (hrefused : Refused listen 0 addr)
    (hpos : maxRetries ≠ 0) (hs : Splits addr host port) :
    listenWithRetry listen addr maxRetries = (retryLoop listen host port 0 maxRetries, none) := by
  obtain ⟨msg, hmsg⟩ := hrefused
  obtain ⟨text, hsplit, hparse⟩ := hs
  simp only [listenWithRetry, hmsg, hpos, ↓reduceIte, hsplit, hparse]

/-- When every port is in use, `listenWithRetry` returns neither an address nor
an error, and `main` calls a method of the nil address. -/
theorem startup_panics_iff (listen : Listen) (addr : Bytes) (maxRetries : Nat) :
    startup (listenWithRetry listen addr maxRetries) = .panics ↔
      maxRetries ≠ 0 ∧ Refused listen 0 addr ∧ ∃ host port, Splits addr host port ∧
        ∀ k < maxRetries, Refused listen (k + 1) (nextAddr host port k) := by
  constructor
  · intro h
    unfold listenWithRetry at h
    cases hl : listen 0 addr with
    | ok bound => simp [hl, startup] at h
    | error msg =>
      by_cases hpos : maxRetries = 0
      · simp [hl, hpos, startup] at h
      cases hsplit : splitHostPort addr with
      | error e => simp [hl, hpos, hsplit, startup] at h
      | ok parts =>
        cases hparse : parseInt parts.2 with
        | none => simp [hl, hpos, hsplit, hparse, startup] at h
        | some port =>
          simp only [hl, hpos, hsplit, hparse, ↓reduceIte] at h
          have hnone : retryLoop listen parts.1 port 0 maxRetries = none := by
            cases hr : retryLoop listen parts.1 port 0 maxRetries with
            | none => rfl
            | some bound => simp [hr, startup] at h
          refine ⟨hpos, ⟨msg, hl⟩, parts.1, port, ⟨parts.2, hsplit, hparse⟩, fun k hk => ?_⟩
          exact (retryLoop_eq_none_iff listen).mp hnone k (Nat.zero_le k) (by omega)
  · rintro ⟨hpos, hrefused, host, port, hs, hall⟩
    have hnone : retryLoop listen host port 0 maxRetries = none :=
      (retryLoop_eq_none_iff listen).mpr fun k _ hk => hall k (by omega)
    rw [listenWithRetry_loop hrefused hpos hs, hnone]
    rfl

/-- The address that is served is the first one, in the order of the ports,
that the system gives. -/
theorem startup_serves_first {addr bound : Bytes} {maxRetries : Nat}
    (h : startup (listenWithRetry listen addr maxRetries) = .serves bound) :
    listen 0 addr = .ok bound ∨ Refused listen 0 addr ∧ ∃ host port, Splits addr host port ∧ ∃ k < maxRetries,
      listen (k + 1) (nextAddr host port k) = .ok bound ∧ ∀ j < k, Refused listen (j + 1) (nextAddr host port j) := by
  unfold listenWithRetry at h
  cases hl : listen 0 addr with
  | ok first =>
    simp only [hl, startup, Startup.serves.injEq] at h
    exact .inl (congrArg Except.ok h)
  | error msg =>
    refine .inr ⟨⟨msg, hl⟩, ?_⟩
    by_cases hpos : maxRetries = 0
    · simp [hl, hpos, startup] at h
    cases hsplit : splitHostPort addr with
    | error e => simp [hl, hpos, hsplit, startup] at h
    | ok parts =>
      cases hparse : parseInt parts.2 with
      | none => simp [hl, hpos, hsplit, hparse, startup] at h
      | some port =>
        simp only [hl, hpos, hsplit, hparse, ↓reduceIte] at h
        cases hr : retryLoop listen parts.1 port 0 maxRetries with
        | none => simp [hr, startup] at h
        | some first =>
          simp only [hr, startup, Startup.serves.injEq] at h
          obtain ⟨k, -, hk, hok, hbefore⟩ := retryLoop_eq_some listen hr
          refine ⟨parts.1, port, ⟨parts.2, hsplit, hparse⟩, k, by omega, h ▸ hok, fun j hj => ?_⟩
          exact hbefore j (Nat.zero_le j) hj

def oneTaken (taken : Bytes) : Listen := fun _ addr =>
  match splitHostPort addr with
  | .error _ => .error (ascii "bad address")
  | .ok _ => if addr = taken then .error (ascii "address already in use") else .ok addr

theorem oneTaken_serves : ∃ host port, Splits (ascii ":6379") host port ∧ ∃ k < 10,
    oneTaken (ascii ":6379") (k + 1) (nextAddr host port k) = .ok (ascii ":6380") := by
  have h : startup (listenWithRetry (oneTaken (ascii ":6379")) (ascii ":6379") 10) = .serves (ascii ":6380") := by
    decide +kernel
  have hbusy : oneTaken (ascii ":6379") 0 (ascii ":6379") = .error (ascii "address already in use") := by decide +kernel
  obtain hfirst | ⟨-, host, port, hs, k, hk, hok, -⟩ := startup_serves_first h
  · rw [hbusy] at hfirst
    cases hfirst
  · exact ⟨host, port, hs, k, hk, hok⟩

/-- `net.Listen` takes its address apart as well, unless it is empty. -/
def Strict (listen : Listen) : Prop :=
  ∀ n addr e, addr ≠ [] → splitHostPort addr = .error e → Refused listen n addr

theorem digits_not_mem {text : Bytes} (hdigits : ∀ b ∈ text, isDigit b = true) {c : UInt8} (hc : isDigit c = false) :
    c ∉ text := fun hm => by
  rw [hdigits c hm] at hc
  cases hc

theorem splitHostPort_bracketed {host text : Bytes} (hopen : (91 : UInt8) ∉ host) (hclose : (93 : UInt8) ∉ host)
    (hdigits : ∀ b ∈ text, isDigit b = true) :
    splitHostPort (91 :: (host ++ 93 :: 58 :: text)) = .ok (host, text) := by
  have hsplit : 91 :: (host ++ 93 :: 58 :: text) = (91 :: host ++ [93]) ++ 58 :: text := by simp
  have hlast : cutLast 58 (91 :: (host ++ 93 :: 58 :: text)) = some (91 :: host ++ [93], text) := by
    rw [hsplit]
    exact cutLast_append (digits_not_mem hdigits (by decide))
  have hfirst : cutFirst 93 (91 :: (host ++ 93 :: 58 :: text)) = some (91 :: host, 58 :: text) :=
    cutFirst_append (a := 91 :: host) (by simpa using hclose)
  have hno91 : (host ++ 93 :: 58 :: text).contains 91 = false := by
    simpa [hopen] using digits_not_mem hdigits (c := 91) (by decide)
  have hno93 : (58 :: text).contains 93 = false := by
    simpa using digits_not_mem hdigits (c := 93) (by decide)
  simp only [splitHostPort, hlast, hfirst, List.head?_cons, ↓reduceIte, List.drop_succ_cons, List.drop_zero, hno91,
    hno93, Bool.false_eq_true, reduceCtorEq]

theorem splitHostPort_unbracketed {host : Bytes} (hcolon : (58 : UInt8) ∈ host) (hopen : (91 : UInt8) ∉ host)
    (port : Int) (i : Nat) : splitHostPort (nextAddr host port i) = .error .tooManyColons := by
  have hno : (58 : UInt8) ∉ formatInt (wrap64 (port + i + 1)) := fun hm =>
    absurd (mem_formatInt hm) (by decide)
  have hhead : (nextAddr host port i).head? ≠ some 91 := by
    obtain ⟨b, s, rfl⟩ := List.exists_cons_of_ne_nil (List.ne_nil_of_mem hcolon)
    exact fun h => hopen (Option.some.inj h ▸ List.mem_cons_self)
  have hcut : cutLast 58 (nextAddr host port i) = some (host, formatInt (wrap64 (port + i + 1))) := cutLast_append hno
  simp [splitHostPort, hcut, hhead, hcolon]

/-- A host with colons needs brackets, and the retries leave them out: no port
is found, however many are free. -/
theorem ipv6_port_in_use_panics (hstrict : Strict listen) {host text : Bytes} {port : Int} {maxRetries : Nat}
    (hcolon : (58 : UInt8) ∈ host) (hopen : (91 : UInt8) ∉ host) (hclose : (93 : UInt8) ∉ host)
    (hdigits : ∀ b ∈ text, isDigit b = true) (hparse : parseInt text = some port) (hpos : maxRetries ≠ 0)
    (hbusy : Refused listen 0 (91 :: (host ++ 93 :: 58 :: text))) :
    startup (listenWithRetry listen (91 :: (host ++ 93 :: 58 :: text)) maxRetries) = .panics := by
  have hs : Splits (91 :: (host ++ 93 :: 58 :: text)) host port :=
    ⟨text, splitHostPort_bracketed hopen hclose hdigits, hparse⟩
  have hnone : retryLoop listen host port 0 maxRetries = none :=
    (retryLoop_eq_none_iff listen).mpr fun k _ _ =>
      hstrict _ _ _ (by simp [nextAddr]) (splitHostPort_unbracketed hcolon hopen port k)
  rw [listenWithRetry_loop hbusy hpos hs, hnone]
  rfl

theorem oneTaken_panics :
    startup (listenWithRetry (oneTaken (ascii "[::1]:6379")) (ascii "[::1]:6379") 10) = .panics := by
  have hstrict : Strict (oneTaken (ascii "[::1]:6379")) := fun _ _ _ _ he =>
    ⟨ascii "bad address", by simp only [oneTaken, he]⟩
  have hbusy : Refused (oneTaken (ascii "[::1]:6379")) 0 (91 :: (ascii "::1" ++ 93 :: 58 :: ascii "6379")) :=
    ⟨ascii "address already in use", by decide +kernel⟩
  have hparse : parseInt (ascii "6379") = some 6379 := by decide
  have haddr : 91 :: (ascii "::1" ++ 93 :: 58 :: ascii "6379") = ascii "[::1]:6379" := by decide
  have h := ipv6_port_in_use_panics hstrict (by decide) (by decide) (by decide) (List.all_eq_true.mp (by decide)) hparse
    (by decide : 10 ≠ 0) hbusy
  rwa [haddr] at h

end MemX.ServerListen
