import MemX.RespBuffered
import MemX.RespWriter
import MemX.ServerFrames

namespace MemX.ServerBuffers

open DecimalText Clock StoreState CommandProgram CommandHandlers CommandRegistry
open RespRead RespWrite RespBuffered BufReader BufWriter PersistLimits ServerConn ServerFrames

variable {c : Config}

/-- The sending side of a connection: what the client has been sent, and what
the next writes do, `some n` being an error after `n` bytes. -/
structure Conn where
  content : Bytes
  faults : List (Option Nat)

def Conn.write (p : Bytes) (s : Conn) : Written Conn :=
  let r := taken p s.faults.head?.join
  ⟨r.1, r.2, ⟨s.content ++ p.take r.1, s.faults.tail⟩⟩

def connSink : Sink UInt8 Conn where
  write := Conn.write
  content := Conn.content
  content_write _ _ := rfl
  complete _ _ h := length_le_taken h

abbrev Out := Buffered UInt8 Conn

abbrev Segments := { chunks : List Bytes // ∀ x ∈ chunks, x ≠ [] }

abbrev PooledReader := { rd : Reader UInt8 // rd.size = connBuffer }

/-- `Reset` of a reader from the pool: its buffer keeps the bytes of earlier
connections. -/
def resetReader (pooled : PooledReader) (input : Segments) : Reader UInt8 :=
  ⟨[], [], pooled.1.buffer, input.1, input.2⟩

/-- `Reset` of a writer from the pool, which drops what it holds and its error. -/
def resetWriter (_pooled : Out) (conn : Conn) : Out := ⟨[], false, conn⟩

def writeReply (r : Reply) : Out → Out := RespWriter.writeTo connSink false r

/-- The gate ignores errors of the connection. -/
def sendGated (r : Reply) (bw : Out) : Out := flush connSink (writeReply r bw)

def sendExecuted (r : Reply) : Out → Out := andThen (writeReply r) (flush connSink)

def sendError : ReadErr → Out → Out
  | .protocol msg, bw => sendGated (.error (ascii "ERR Protocol error: " ++ msg)) bw
  | _, bw => bw

def send : Response → Out → Out
  | .gated r => sendGated r
  | .executed r => sendExecuted r

structure Served (c : Config) where
  responses : List Response
  world : World c
  out : Out

/-- The loop of `handleConn` as it runs, with its buffers. A command without
tokens would panic at `tokens[0]`, which ends the connection. -/
def serve (h : Host) (requirePass : Bytes) (lim : Limits) :
    List (Round c) → Bool → World c → Reader UInt8 → Out → Served c
  | [], _, w, _, bw => ⟨[], w, bw⟩
  | round :: rounds, authed, w, rd, bw =>
    match readCommandFrom lim rd with
    | (.error e, _) => ⟨[], w, sendError e bw⟩
    | (.ok tokens, rd) =>
      if ht : tokens ≠ [] then
        let r := respond h requirePass round.now authed (round.meanwhile w) ⟨tokens, ht⟩
        let bw := send r.1 bw
        if authed ∧ bw.failed then ⟨[r.1], r.2.2, bw⟩
        else
          let later := serve h requirePass lim rounds r.2.1 r.2.2 rd bw
          { later with responses := r.1 :: later.responses }
      else ⟨[], w, bw⟩

def handle (h : Host) (requirePass : Bytes) (lim : Limits) (rounds : List (Round c)) (w : World c)
    (reader : PooledReader) (writer : Out) (input : Segments) (conn : Conn) : Served c :=
  serve h requirePass lim rounds (requirePass = []) w (resetReader reader input) (resetWriter writer conn)

def turns (lim : Limits) : List (Round c) → Bytes → List (Turn c)
  | [], _ => []
  | round :: rounds, input =>
    match hr : readCommand connBuffer lim input with
    | .error _ => []
    | .ok (tokens, rest) => ⟨round.meanwhile, round.now, tokens, readCommand_ne_nil hr⟩ :: turns lim rounds rest

section Steps

variable {h : Host} {requirePass : Bytes} {lim : Limits} {round : Round c} {rounds : List (Round c)} {authed : Bool}
  {w : World c} {input rest : Bytes} {tokens : List Bytes} {rd : Reader UInt8} {bw : Out}

theorem turns_error {e : ReadErr} (hr : readCommand connBuffer lim input = .error e) :
    turns lim (round :: rounds) input = [] := by
  rw [turns]
  split
  · rfl
  · rename_i he
    cases he.symm.trans hr

theorem turns_ok (hr : readCommand connBuffer lim input = .ok (tokens, rest)) :
    turns lim (round :: rounds) input =
      ⟨round.meanwhile, round.now, tokens, readCommand_ne_nil hr⟩ :: turns lim rounds rest := by
  rw [turns]
  split
  · rename_i he
    cases he.symm.trans hr
  · rename_i he
    cases he.symm.trans hr
    rfl

theorem handleConn_error {e : ReadErr} (hr : readCommand connBuffer lim input = .error e) :
    handleConn h requirePass lim (round :: rounds) authed w input = ([], handleReadError e) := by
  rw [handleConn]
  split
  · rename_i he
    cases he.symm.trans hr
    rfl
  · rename_i he
    cases he.symm.trans hr

theorem handleConn_ok (hr : readCommand connBuffer lim input = .ok (tokens, rest)) :
    handleConn h requirePass lim (round :: rounds) authed w input =
      let r := respond h requirePass round.now authed (round.meanwhile w) ⟨tokens, readCommand_ne_nil hr⟩
      let later := handleConn h requirePass lim rounds r.2.1 r.2.2 rest
      (r.1 :: later.1, later.2) := by
  rw [handleConn]
  split
  · rename_i he
    cases he.symm.trans hr
  · rename_i he
    cases he.symm.trans hr
    rfl

theorem serve_error (hs : rd.size = connBuffer) {e : ReadErr}
    (hr : readCommand connBuffer lim rd.pending = .error e) :
    serve h requirePass lim (round :: rounds) authed w rd bw = ⟨[], w, sendError e bw⟩ := by
  have hagree := refines_readCommand lim rd (by rw [hs]; decide)
  rw [hs] at hagree
  beta_reduce at hagree
  rw [hr] at hagree
  rw [serve]
  generalize readCommandFrom lim rd = x at hagree ⊢
  cases hagree
  rfl

variable (h requirePass round rounds authed w bw) in
theorem serve_ok (hs : rd.size = connBuffer) (hr : readCommand connBuffer lim rd.pending = .ok (tokens, rest)) :
    ∃ rd' : Reader UInt8, rd'.pending = rest ∧ rd'.size = connBuffer ∧
      serve h requirePass lim (round :: rounds) authed w rd bw =
        let r := respond h requirePass round.now authed (round.meanwhile w) ⟨tokens, readCommand_ne_nil hr⟩
        let later := serve h requirePass lim rounds r.2.1 r.2.2 rd' (send r.1 bw)
        if authed ∧ (send r.1 bw).failed then ⟨[r.1], r.2.2, send r.1 bw⟩
        else { later with responses := r.1 :: later.responses } := by
  have hpos : 0 < rd.size := by rw [hs]; decide
  obtain ⟨rd', hx, hp, hsize⟩ := (refines_readCommand lim).ok hpos (hs ▸ hr)
  refine ⟨rd', hp, hsize.trans hs, ?_⟩
  rw [serve, hx]
  exact dif_pos (readCommand_ne_nil hr)

theorem writes_send (r : Response) : Writes connSink (send r) (writeTo r.reply) := by
  intro bw
  cases r with
  | gated r =>
    have h := (RespWriter.writes_writeTo r bw).trans (puts_flush (writeReply r bw))
    rwa [List.append_nil] at h
  | executed r =>
    have h : Writes connSink (sendExecuted r) (writeTo r ++ []) := (RespWriter.writes_writeTo r).andThen writes_flush
    rw [List.append_nil] at h
    exact h bw

theorem send_buf {r : Response} (hok : (send r bw).failed = false) : (send r bw).buf = [] := by
  cases r with
  | gated r => exact flushes_flush _ hok
  | executed r => exact flushes_flush.after _ hok

theorem send_content {r : Response} (hbw : bw.failed = false → bw.buf = []) (hok : (send r bw).failed = false) :
    bw.failed = false ∧ (send r bw).out.content = bw.out.content ++ writeTo r.reply := by
  have hputs := writes_send r bw
  have hw := hputs.ok_before hok
  have hs := hputs.stream hok
  rw [send_buf hok, hbw hw, List.append_nil, List.append_nil] at hs
  exact ⟨hw, hs⟩

theorem authed_of_executed {tokens : Tokens} {now : Readings} {x : Reply}
    (hx : (respond h requirePass now authed w tokens).1 = .executed x) : authed = true := by
  cases authed with
  | true => rfl
  | false => cases hx

theorem writes_sendError (e : ReadErr) : Writes connSink (sendError e) (writeAll (handleReadError e)) := by
  intro bw
  cases e with
  | protocol msg =>
    have h := writes_send (.gated (.error (ascii "ERR Protocol error: " ++ msg))) bw
    rw [handleReadError, writeAll, writeAll, List.append_nil]
    exact h
  | _ => exact .refl bw

theorem sendError_buf {e : ReadErr} (hbw : bw.failed = false → bw.buf = []) (hok : (sendError e bw).failed = false) :
    (sendError e bw).buf = [] := by
  cases e with
  | protocol msg => exact flushes_flush _ hok
  | _ => exact hbw hok

theorem stream_cons (r : Response) (rs : List Response) (es : List Reply) :
    stream (r :: rs, es) = writeTo r.reply ++ stream (rs, es) := by
  simp [stream, sent]

variable (h requirePass lim) in
/-- Whatever the connection does, it gets a front of the stream of the plain
model, and without an error the whole of it. -/
theorem serve_puts (rounds : List (Round c)) (authed : Bool) (w : World c) (rd : Reader UInt8) (bw : Out)
    (hs : rd.size = connBuffer) :
    Puts connSink bw (stream (handleConn h requirePass lim rounds authed w rd.pending))
      (serve h requirePass lim rounds authed w rd bw).out := by
  induction rounds generalizing authed w rd bw with
  | nil => exact .refl bw
  | cons round rounds ih =>
    cases hr : readCommand connBuffer lim rd.pending with
    | error e =>
      rw [serve_error hs hr, handleConn_error hr]
      exact writes_sendError e bw
    | ok x =>
      obtain ⟨tokens, rest⟩ := x
      obtain ⟨rd', rfl, hs', heq⟩ := serve_ok h requirePass round rounds authed w bw hs hr
      rw [heq, handleConn_ok hr]
      dsimp only
      rw [stream_cons]
      split_ifs with hf
      · exact (writes_send _ bw).stop hf.2 _
      · exact (writes_send _ bw).trans (ih _ _ rd' _ hs')

variable (h requirePass lim) in
theorem serve_session (rounds : List (Round c)) (authed : Bool) (w : World c) (rd : Reader UInt8) (bw : Out)
    (hs : rd.size = connBuffer) (hbw : bw.failed = false → bw.buf = []) :
    ∃ k, (serve h requirePass lim rounds authed w rd bw).responses =
        (session h requirePass authed w ((turns lim rounds rd.pending).take k)).1 ∧
      (serve h requirePass lim rounds authed w rd bw).world =
        (session h requirePass authed w ((turns lim rounds rd.pending).take k)).2.2 ∧
      ((serve h requirePass lim rounds authed w rd bw).out.failed = false →
        (turns lim rounds rd.pending).length ≤ k ∧ (serve h requirePass lim rounds authed w rd bw).out.buf = []) := by
  induction rounds generalizing authed w rd bw with
  | nil => exact ⟨0, rfl, rfl, fun hok => ⟨le_rfl, hbw hok⟩⟩
  | cons round rounds ih =>
    cases hr : readCommand connBuffer lim rd.pending with
    | error e =>
      rw [serve_error hs hr, turns_error hr]
      exact ⟨0, rfl, rfl, fun hok => ⟨le_rfl, sendError_buf hbw hok⟩⟩
    | ok x =>
      obtain ⟨tokens, rest⟩ := x
      obtain ⟨rd', rfl, hs', heq⟩ := serve_ok h requirePass round rounds authed w bw hs hr
      rw [heq, turns_ok hr]
      dsimp only
      generalize hrr : respond h requirePass round.now authed (round.meanwhile w) ⟨tokens, readCommand_ne_nil hr⟩ = r
      split_ifs with hf
      · refine ⟨1, ?_, ?_, fun hok => absurd hok (by simp [hf.2])⟩
        · simp [session, hrr]
        · simp [session, hrr]
      · obtain ⟨k, hresp, hworld, hall⟩ := ih r.2.1 r.2.2 rd' (send r.1 bw) hs' send_buf
        refine ⟨k + 1, ?_, ?_, fun hok => ?_⟩
        · simp [session, hrr, hresp]
        · simp [session, hrr, hworld]
        · simpa using hall hok

/-- Before a connection reads another command, the reply to the command that it
executed last is out. -/
theorem serve_delivered (rounds : List (Round c)) (authed : Bool) (w : World c) (rd : Reader UInt8) (bw : Out)
    (hs : rd.size = connBuffer) (hbw : bw.failed = false → bw.buf = []) {front back : List Response} {x : Reply}
    {next : Response}
    (hresp : (serve h requirePass lim rounds authed w rd bw).responses = front ++ .executed x :: next :: back) :
    bw.failed = false ∧ bw.out.content ++ sent (front ++ [.executed x]) <+:
      (serve h requirePass lim rounds authed w rd bw).out.out.content := by
  induction rounds generalizing authed w rd bw front with
  | nil => simp [serve] at hresp
  | cons round rounds ih =>
    cases hr : readCommand connBuffer lim rd.pending with
    | error e =>
      rw [serve_error hs hr] at hresp
      simp at hresp
    | ok y =>
      obtain ⟨tokens, rest⟩ := y
      obtain ⟨rd', rfl, hs', heq⟩ := serve_ok h requirePass round rounds authed w bw hs hr
      rw [heq] at hresp ⊢
      dsimp only at hresp ⊢
      generalize hrr : respond h requirePass round.now authed (round.meanwhile w)
        ⟨tokens, readCommand_ne_nil hr⟩ = r at hresp ⊢
      split_ifs at hresp ⊢ with hf
      · have hlen := congrArg List.length hresp
        simp only [List.length_append, List.length_cons, List.length_nil] at hlen
        omega
      · cases front with
        | nil =>
          obtain ⟨hx, -⟩ := List.cons.inj hresp
          have hauthed : authed = true := authed_of_executed (hrr ▸ hx)
          obtain ⟨hw, hout⟩ := send_content (r := r.1) hbw (by simpa [hauthed] using hf)
          refine ⟨hw, ?_⟩
          have hgrow := (serve_puts h requirePass lim rounds r.2.1 r.2.2 rd' (send r.1 bw) hs').calls.grows
          rw [hx] at hout
          refine List.IsPrefix.trans ?_ hgrow
          simp [connSink, hx, hout, sent, Response.reply]
        | cons r' front =>
          obtain ⟨rfl, hlater⟩ := List.cons.inj hresp
          obtain ⟨hok, hpre⟩ := ih _ _ rd' _ hs' send_buf hlater
          obtain ⟨hw, hout⟩ := send_content hbw hok
          rw [hout] at hpre
          exact ⟨hw, by simpa [sent, List.append_assoc] using hpre⟩

end Steps

theorem resetReader_size (reader : PooledReader) (input : Segments) : (resetReader reader input).size = connBuffer := by
  rw [← reader.2, Reader.size_eq]
  simp [resetReader, Reader.size]

/-- A connection with buffers from the pools, whatever they hold, over input
that arrives in any pieces and writes that may fail: it answers the first of the
commands that the plain model reads from the same bytes, and changes the world
as they do; the client gets a front of the plain model's stream; and a command
is read after one that was executed only when the reply to that one is out.
Without a write error it is all of the commands and all of the stream. -/
theorem connection_refines_stream (h : Host) (requirePass : Bytes) (lim : Limits) (rounds : List (Round c))
    (w : World c) (reader : PooledReader) (writer : Out) (input : Segments) (faults : List (Option Nat)) :
    let r := handle h requirePass lim rounds w reader writer input ⟨[], faults⟩
    let received := turns lim rounds input.1.flatten
    let plain := handleConn h requirePass lim rounds (requirePass = []) w input.1.flatten
    (∃ k, r.responses = (connect h requirePass w (received.take k)).1 ∧
      r.world = (connect h requirePass w (received.take k)).2.2 ∧ (r.out.failed = false → received.length ≤ k)) ∧
    r.out.out.content <+: stream plain ∧ (r.out.failed = false → r.out.out.content = stream plain) ∧
    ∀ front x next back, r.responses = front ++ .executed x :: next :: back →
      sent (front ++ [.executed x]) <+: r.out.out.content := by
  intro r received plain
  have hsize := resetReader_size reader input
  have hputs : Puts connSink (resetWriter writer ⟨[], faults⟩) (stream plain) r.out :=
    serve_puts h requirePass lim rounds _ w _ _ hsize
  obtain ⟨k, hresp, hworld, hall⟩ := serve_session h requirePass lim rounds (requirePass = []) w
    (resetReader reader input) (resetWriter writer ⟨[], faults⟩) hsize fun _ => rfl
  refine ⟨⟨k, hresp, hworld, fun hok => (hall hok).1⟩, hputs.sent, fun hok => ?_, fun front x next back hr => ?_⟩
  · have hbuf : r.out.buf = [] := (hall hok).2
    have hs := hputs.stream hok
    rw [hbuf, List.append_nil] at hs
    exact hs
  · exact (serve_delivered rounds _ w _ _ hsize (fun _ => rfl) hr).2

end MemX.ServerBuffers
