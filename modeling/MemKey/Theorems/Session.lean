import Mathlib.Data.List.TakeWhile
import MemKey.Session
import MemKey.Theorems.Wire

/-! Runs of a connection. Nothing in the two streams says where a message ends but its NUL, and `readline`
    does not look at how many bytes it got. As long as every `read` takes just one message, requests and
    replies arrive as they were sent. -/

namespace MemKey
open Outcome

/-- The next `n` bytes of the stream are one message as `writeline` has written it. -/
def TakesMessage (stream : List UInt8) (n : ℕ) : Prop :=
  ∃ line rest, 0 ∉ line ∧ stream = writeline line ++ rest ∧ n = (writeline line).length

/-- The message that a stream starts with, if it starts with one. -/
def firstLine (stream : List UInt8) : Bytes := (stream.takeWhile (· ≠ 0)).dropLast

/-- Every `read` takes one message. -/
def Session.Whole (s : Session) : SessionAction → Prop
  | .serve _ n => TakesMessage s.toServer n
  | .receive _ n => TakesMessage s.toClient n
  | _ => True

/-- The replies of `interpret` to the messages, one after another. -/
def answers (m : IntMode) (ht : Keyspace) : List Bytes → Except Fault (Keyspace × List Bytes)
  | [] => .ok (ht, [])
  | msg :: msgs => do
    let cmd ← parse msg
    let (ht, resp) ← interpret m ht cmd
    let (ht, resps) ← answers m ht msgs
    .ok (ht, resp.takeWhile (· ≠ 0) :: resps)

/-- The replies that the server has written: the one that ends the session is not. -/
def Session.written (s : Session) : List Bytes := if s.ended = none then s.replies else s.replies.dropLast

/-- The connections that runs reach whose actions are possible and meet `P`. -/
abbrev SessionReached (m : IntMode) (ht : Keyspace) (P : Session → SessionAction → Prop) : Session → Prop :=
  Runs.Reached (Session.step m) (.start ht) fun s a => s.Enabled a ∧ P s a

/-- The server has handed the lines that the client has sent to `parse`, in order, and has answered them; the
    client has read the replies in order. The rest is on its way. -/
structure Faithful (m : IntMode) (ht : Keyspace) (s : Session) : Prop where
  messages : s.messages <+: s.sent
  received : s.toServer = [] → s.messages = s.sent
  answered : answers m ht s.messages = .ok (s.ht, s.replies)
  shown : s.shown <+: s.written
  read : s.toClient = [] → s.shown = s.written
  nth : ∀ (n : ℕ) (reply : Bytes), s.shown[n]? = some reply → ∃ line, s.sent[n]? = some line ∧ s.messages[n]? = some line ∧
    s.replies[n]? = some reply

/-- The messages between `sent` and `arrived` are the content of the stream. -/
def Between (sent arrived : List Bytes) (stream : List UInt8) : Prop :=
  ∃ way, sent = arrived ++ way ∧ (∀ line ∈ way, 0 ∉ line) ∧ stream = way.flatMap writeline

/-- The invariant of a connection whose reads take whole messages. -/
structure Framed (m : IntMode) (ht : Keyspace) (s : Session) : Prop where
  requests : Between s.sent s.messages s.toServer
  answered : answers m ht s.messages = .ok (s.ht, s.replies)
  replies : Between s.written s.shown s.toClient

section Session
variable {m : IntMode} {ht : Keyspace} {s s' : Session} {line line' : Bytes} {stream rest rest' : List UInt8}
  {sent arrived : List Bytes} {n : ℕ}

theorem firstLine_writeline (hline : 0 ∉ line) (rest : List UInt8) : firstLine (writeline line ++ rest) = line := by
  have hpos : ∀ b ∈ line ++ str "\n", decide (b ≠ 0) = true := by
    intro b hb
    refine decide_eq_true fun h0 => ?_
    rcases List.mem_append.mp hb with hb | hb
    · exact hline (h0 ▸ hb)
    · exact absurd (h0 ▸ hb) (by decide)
  rw [firstLine, writeline, List.append_assoc (line ++ str "\n"), List.takeWhile_append_of_pos hpos]
  simp [str]

theorem writeline_inj (h : 0 ∉ line) (h' : 0 ∉ line') (heq : writeline line ++ rest = writeline line' ++ rest') :
    line = line' ∧ rest = rest' := by
  have hline := congrArg firstLine heq
  rw [firstLine_writeline h, firstLine_writeline h'] at hline
  subst hline
  exact ⟨rfl, List.append_cancel_left heq⟩

theorem nul_notMem_firstLine (stream : List UInt8) : 0 ∉ firstLine stream := by
  intro h
  have hne := List.mem_takeWhile_imp (List.dropLast_subset _ h)
  simp at hne

/-- A stream starts with a message if and only if it starts with its first line. -/
theorem exists_message_iff : (∃ rest, 0 ∉ line ∧ stream = writeline line ++ rest) ↔
    line = firstLine stream ∧ stream.take (writeline (firstLine stream)).length = writeline (firstLine stream) := by
  constructor
  · rintro ⟨rest, hline, rfl⟩
    rw [firstLine_writeline hline, List.take_left]
    exact ⟨rfl, rfl⟩
  · rintro ⟨rfl, htake⟩
    exact ⟨_, nul_notMem_firstLine stream, (List.take_append_drop _ stream).symm.trans (by rw [htake])⟩

theorem takesMessage_iff : TakesMessage stream n ↔
    stream.take (writeline (firstLine stream)).length = writeline (firstLine stream) ∧
      n = (writeline (firstLine stream)).length := by
  constructor
  · rintro ⟨line, rest, hline, hstream, hn⟩
    obtain ⟨rfl, htake⟩ := exists_message_iff.mp ⟨rest, hline, hstream⟩
    exact ⟨htake, hn⟩
  · rintro ⟨htake, hn⟩
    obtain ⟨rest, hline, hstream⟩ := exists_message_iff.mpr ⟨rfl, htake⟩
    exact ⟨_, rest, hline, hstream, hn⟩

instance : Decidable (TakesMessage stream n) := decidable_of_iff _ takesMessage_iff.symm

instance (s : Session) : (a : SessionAction) → Decidable (s.Whole a)
  | .serve _ n => inferInstanceAs (Decidable (TakesMessage s.toServer n))
  | .receive _ n => inferInstanceAs (Decidable (TakesMessage s.toClient n))
  | .request _ | .close => .isTrue trivial

theorem Between.empty (h : Between sent arrived []) : arrived = sent := by
  obtain ⟨way, rfl, -, hstream⟩ := h
  cases way with
  | nil => simp
  | cons line way => simp [writeline] at hstream

theorem Between.isPrefix (h : Between sent arrived stream) : arrived <+: sent := by
  obtain ⟨way, rfl, -, -⟩ := h
  exact List.prefix_append arrived way

theorem Between.push (h : Between sent arrived stream) (hline : 0 ∉ line) :
    Between (sent ++ [line]) arrived (stream ++ writeline line) := by
  obtain ⟨way, rfl, hway, rfl⟩ := h
  refine ⟨way ++ [line], by simp, ?_, by simp⟩
  intro l hl
  rcases List.mem_append.mp hl with hl | hl
  · exact hway l hl
  · exact List.mem_singleton.mp hl ▸ hline

/-- A read of one message takes the one that was sent first. -/
theorem Between.pop (h : Between sent arrived stream) (htake : TakesMessage stream n) (hn : n ≤ bufSize)
    (msg : Buffer) : ∃ line mem stream', 0 ∉ line ∧ readline msg stream n = .ok (mem, stream') ∧
      cstr mem = .ok line ∧ Between sent (arrived ++ [line]) stream' := by
  obtain ⟨way, rfl, hway, rfl⟩ := h
  obtain ⟨line, rest, hline, hstream, rfl⟩ := htake
  cases way with
  | nil => simp [writeline] at hstream
  | cons line' way =>
    rw [List.flatMap_cons] at hstream
    obtain ⟨hline', hway⟩ := List.forall_mem_cons.mp hway
    obtain ⟨rfl, rfl⟩ := writeline_inj hline' hline hstream
    obtain ⟨junk, hread⟩ := readline_writeline msg hline hn (way.flatMap writeline)
    refine ⟨line', _, _, hline, hread, cstr_append hline junk, way, by simp, hway, rfl⟩

/-- Only a read of one message leaves the rest of what was sent in the stream. -/
theorem Between.takes (h : Between sent arrived stream) (hn : n ≤ stream.length)
    (h' : Between sent (arrived ++ [line]) (stream.drop n)) : TakesMessage stream n := by
  obtain ⟨way, rfl, hway, rfl⟩ := h
  obtain ⟨way', heq, -, hdrop⟩ := h'
  rw [List.append_assoc] at heq
  obtain rfl : way = line :: way' := List.append_cancel_left heq
  have hlen := congrArg List.length hdrop
  rw [List.flatMap_cons, List.length_drop, List.length_append] at hlen
  rw [List.flatMap_cons, List.length_append] at hn
  exact ⟨line, way'.flatMap writeline, hway line List.mem_cons_self, rfl, by omega⟩

theorem Delivers.le {closed : Prop} (h : Delivers stream closed n) : n ≤ stream.length ∧ n ≤ bufSize := by
  rcases h with ⟨-, hbuf, hlen⟩ | ⟨rfl, -, -⟩
  · exact ⟨hlen, hbuf⟩
  · exact ⟨Nat.zero_le _, Nat.zero_le _⟩

theorem readline_rest {msg : Buffer} {mem : List UInt8} (h : readline msg stream n = .ok (mem, rest))
    (hn : n ≤ bufSize) : rest = stream.drop n := by
  obtain ⟨l, -, h⟩ := bind_eq_ok.mp h
  split at h
  · cases h
  · cases h
    exact congrArg stream.drop (min_eq_left hn)

/-! ### One action -/

theorem answers_append {msgs : List Bytes} {msg : Bytes} {resps : List Bytes} {ht₁ ht₂ : Keyspace} {cmd : Command}
    {resp : Bytes} (h : answers m ht msgs = .ok (ht₁, resps)) (hparse : parse msg = .ok cmd)
    (hrun : interpret m ht₁ cmd = .ok (ht₂, resp)) :
    answers m ht (msgs ++ [msg]) = .ok (ht₂, resps ++ [resp.takeWhile (· ≠ 0)]) := by
  induction msgs generalizing ht resps with
  | nil =>
    cases h
    rw [List.nil_append, answers, hparse, ok_bind, hrun]
    rfl
  | cons msg' msgs ih =>
    obtain ⟨cmd', hparse', h⟩ := bind_eq_ok.mp h
    obtain ⟨⟨ht', resp'⟩, hrun', h⟩ := bind_eq_ok.mp h
    obtain ⟨⟨ht'', resps'⟩, hmsgs, h⟩ := bind_eq_ok.mp h
    cases h
    rw [List.cons_append, answers, hparse', ok_bind, hrun', ok_bind]
    dsimp only
    rw [ih hmsgs, ok_bind]
    rfl

theorem nul_takeWhile (resp : Bytes) : 0 ∉ resp.takeWhile (· ≠ 0) := by
  intro hmem
  simpa using List.mem_takeWhile_imp hmem

theorem Framed.start : Framed m ht (.start ht) where
  requests := ⟨[], rfl, by simp, rfl⟩
  answered := rfl
  replies := ⟨[], rfl, by simp, rfl⟩

theorem Framed.request (h : Framed m ht s) (hline : 0 ∉ line) : Framed m ht (s.request line) :=
  ⟨h.requests.push hline, h.answered, h.replies⟩

theorem Framed.serve {msg : Buffer} (h : Framed m ht s) (hended : s.ended = none)
    (htake : TakesMessage s.toServer n) (hn : n ≤ bufSize) (hs : s.serve m msg n = .ok s') : Framed m ht s' := by
  obtain ⟨line, mem, stream', hline, hread, hcstr, hbetween⟩ := h.requests.pop htake hn msg
  unfold Session.serve at hs
  rw [hread, ok_bind] at hs
  dsimp only at hs
  rw [hcstr, ok_bind] at hs
  obtain ⟨cmd, hparse, hs⟩ := bind_eq_ok.mp hs
  obtain ⟨⟨ht', resp⟩, hrun, hs⟩ := bind_eq_ok.mp hs
  have hanswers := answers_append h.answered hparse hrun
  dsimp only at hs
  split at hs
  · -- The reply that ends the session is not written.
    cases hs
    exact ⟨hbetween, hanswers, by simpa [Session.written, hended] using h.replies⟩
  · cases hs
    have hpush := h.replies.push (nul_takeWhile resp)
    exact ⟨hbetween, hanswers, by simpa [Session.written, hended] using hpush⟩

/-- What a round of the server does to the stream of requests. -/
theorem Session.serve_requests {msg : Buffer} (hs : s.serve m msg n = .ok s') (hn : n ≤ bufSize) :
    ∃ line, s'.sent = s.sent ∧ s'.messages = s.messages ++ [line] ∧ s'.toServer = s.toServer.drop n := by
  obtain ⟨⟨mem, rest⟩, hread, hs⟩ := bind_eq_ok.mp hs
  obtain ⟨line, -, hs⟩ := bind_eq_ok.mp hs
  obtain ⟨cmd, -, hs⟩ := bind_eq_ok.mp hs
  obtain ⟨⟨ht', resp⟩, -, hs⟩ := bind_eq_ok.mp hs
  have hrest := readline_rest hread hn
  dsimp only at hs
  split at hs
  · cases hs
    exact ⟨line, rfl, rfl, hrest⟩
  · cases hs
    exact ⟨line, rfl, rfl, hrest⟩

theorem Session.receive_replies {msg : Buffer} (hs : s.receive msg n = .ok s') (hn : n ≤ bufSize) :
    ∃ resp, s'.written = s.written ∧ s'.shown = s.shown ++ [resp] ∧ s'.toClient = s.toClient.drop n := by
  obtain ⟨⟨mem, rest⟩, hread, hs⟩ := bind_eq_ok.mp hs
  obtain ⟨resp, -, hs⟩ := bind_eq_ok.mp hs
  have hrest := readline_rest hread hn
  cases hs
  exact ⟨resp, rfl, rfl, hrest⟩

theorem Framed.receive {msg : Buffer} (h : Framed m ht s) (htake : TakesMessage s.toClient n) (hn : n ≤ bufSize)
    (hs : s.receive msg n = .ok s') : Framed m ht s' := by
  obtain ⟨resp, mem, stream', -, hread, hcstr, hbetween⟩ := h.replies.pop htake hn msg
  unfold Session.receive at hs
  rw [hread, ok_bind] at hs
  dsimp only at hs
  rw [hcstr, ok_bind] at hs
  cases hs
  exact ⟨h.requests, h.answered, hbetween⟩

theorem SessionReached.framed (h : SessionReached m ht Session.Whole s) : Framed m ht s := by
  refine h.invariant (Framed m ht) .start fun s a s' hinv ⟨henabled, hwhole⟩ hs => ?_
  cases a with
  | request line =>
    cases hs
    exact hinv.request henabled.2.2.2.2.1
  | serve msg n => exact hinv.serve henabled.1 hwhole henabled.2.le.2 hs
  | receive msg n => exact hinv.receive hwhole henabled.2.2.le.2 hs
  | close =>
    cases hs
    exact ⟨hinv.requests, hinv.answered, hinv.replies⟩

/-! ### Whole runs -/

theorem answers_length {msgs resps : List Bytes} {ht' : Keyspace} (h : answers m ht msgs = .ok (ht', resps)) :
    resps.length = msgs.length := by
  induction msgs generalizing ht resps with
  | nil =>
    cases h
    rfl
  | cons msg msgs ih =>
    obtain ⟨cmd, -, h⟩ := bind_eq_ok.mp h
    obtain ⟨⟨ht', resp⟩, -, h⟩ := bind_eq_ok.mp h
    obtain ⟨⟨ht'', resps'⟩, hmsgs, h⟩ := bind_eq_ok.mp h
    cases h
    rw [List.length_cons, List.length_cons, ih hmsgs]

theorem getElem?_of_prefix {l l' : List Bytes} (h : l <+: l') {n : ℕ} (hn : l[n]? = some line) :
    l'[n]? = some line := by
  obtain ⟨t, rfl⟩ := h
  rw [List.getElem?_append_left (List.getElem?_eq_some_iff.mp hn).1, hn]

theorem Session.written_prefix (s : Session) : s.written <+: s.replies := by
  unfold Session.written
  split
  · exact List.prefix_refl _
  · exact List.dropLast_prefix _

theorem Framed.faithful (h : Framed m ht s) : Faithful m ht s := by
  have hsent := h.requests.isPrefix
  have hshown := h.replies.isPrefix
  refine ⟨hsent, fun hnil => (hnil ▸ h.requests).empty, h.answered, hshown, fun hnil => (hnil ▸ h.replies).empty, ?_⟩
  intro n reply hn
  have hreply : s.replies[n]? = some reply := getElem?_of_prefix (hshown.trans s.written_prefix) hn
  have hlt : n < s.messages.length := by
    rw [← answers_length h.answered]
    exact (List.getElem?_eq_some_iff.mp hreply).1
  have hmsg : s.messages[n]? = some s.messages[n] := List.getElem?_eq_getElem hlt
  exact ⟨_, getElem?_of_prefix hsent hmsg, hmsg, hreply⟩

/-- As long as every `read` takes just one message, the messages that `parse` gets are the lines that the client
    has sent, no other command is executed, and the client's n-th reply is the one to its n-th request. A `read`
    that takes anything else leaves a stream that does not hold what is on its way. -/
theorem messages_arrive_whole (h : SessionReached m ht Session.Whole s) :
    Faithful m ht s ∧
    (∀ msg n s', s.Enabled (.serve msg n) → s.serve m msg n = .ok s' →
      (Between s'.sent s'.messages s'.toServer ↔ TakesMessage s.toServer n)) ∧
    ∀ msg n s', s.Enabled (.receive msg n) → s.receive msg n = .ok s' →
      (Between s'.written s'.shown s'.toClient ↔ TakesMessage s.toClient n) := by
  have hf := h.framed
  refine ⟨hf.faithful, fun msg n s' hen hs => ⟨fun hb => ?_, fun htake => ?_⟩,
    fun msg n s' hen hs => ⟨fun hb => ?_, fun htake => ?_⟩⟩
  · obtain ⟨hlen, hbuf⟩ := hen.2.le
    obtain ⟨line, hsent, hmsgs, hstream⟩ := Session.serve_requests hs hbuf
    rw [hsent, hmsgs, hstream] at hb
    exact hf.requests.takes hlen hb
  · exact (hf.serve hen.1 htake hen.2.le.2 hs).requests
  · obtain ⟨hlen, hbuf⟩ := hen.2.2.le
    obtain ⟨resp, hwritten, hshown, hstream⟩ := Session.receive_replies hs hbuf
    rw [hwritten, hshown, hstream] at hb
    exact hf.replies.takes hlen hb
  · exact (hf.receive htake hen.2.2.le.2 hs).replies

theorem Session.receive_eq {msg : Buffer} {mem : List UInt8} (hread : readline msg s.toClient n = .ok (mem, stream))
    (hcstr : cstr mem = .ok line) : s.receive msg n =
      .ok { s with toClient := stream, waiting := false, shown := s.shown ++ [line] } := by
  unfold Session.receive
  rw [hread, ok_bind]
  dsimp only
  rw [hcstr, ok_bind]

/-! ### Runs on fixed memory -/

/-- Memory that holds nothing but NULs, and memory that still holds a message from before. -/
def cleanBuffer : Buffer := ⟨List.replicate bufSize 0, List.length_replicate⟩

def staleBuffer : Buffer :=
  ⟨writeline (str "set a b") ++ List.replicate 1015 0, by rw [List.length_append, List.length_replicate]; rfl⟩

/-- What a run of actions reaches, and what one can see of it. -/
theorem exists_reached {α : Type} {P : Session → SessionAction → Prop} {view : Session → α} {x : α}
    {actions : List SessionAction} (hrun : (Runs.run (Session.step m) (.start ht) actions).map view = .ok x)
    (ha : Runs.Along (Session.step m) (fun s a => s.Enabled a ∧ P s a) (.start ht) actions) :
    ∃ s, SessionReached m ht P s ∧ view s = x := by
  obtain ⟨s, hs, heq⟩ := map_eq_ok.mp hrun
  exact ⟨s, Runs.Reached.init.along ha hs, heq⟩

/-- A write and a read of the same key, each from the line that is typed to the reply that is read. The second message
    is read into memory that still holds another one. -/
-- Irreducible, so that nothing but the kernel runs it.
@[irreducible] def setThenGet : List SessionAction :=
  [.request (str "set k v\n"), .serve cleanBuffer 10, .receive cleanBuffer 10, .request (str "get k\n"),
    .serve staleBuffer 8, .receive staleBuffer 9]

theorem messages_arrive_whole_twice : ∃ s, SessionReached .wrap (htableInit htBaseSize) Session.Whole s ∧
    s.sent = [str "set k v\n", str "get k\n"] ∧ s.shown = [replyString (some (str "OK")), replyString (some (str "v"))] ∧
    Faithful .wrap (htableInit htBaseSize) s := by
  have hrun : (Runs.run (Session.step .wrap) (.start (htableInit htBaseSize)) setThenGet).map (fun s => (s.sent, s.shown)) =
      .ok ([str "set k v\n", str "get k\n"], [replyString (some (str "OK")), replyString (some (str "v"))]) := by
    decide +kernel
  obtain ⟨s, hreached, heq⟩ := exists_reached (P := Session.Whole) hrun (by decide +kernel)
  obtain ⟨hsent, hshown⟩ := Prod.mk.inj heq
  exact ⟨s, hreached, hsent, hshown, (messages_arrive_whole hreached).1⟩

/-! ### Runs that cut and invent messages -/

/-- The server reads from a client that has closed before it has sent anything: the `read` returns 0. -/
@[irreducible] def readOfNothing : List SessionAction := [.close, .serve staleBuffer 0]

/-- The first `read` takes three bytes of the message. -/
@[irreducible] def shortRead : List SessionAction := [.request (str "get key\n"), .serve cleanBuffer 3]

/-- The server executes the message that is still in the memory, and the `ge` of `get key`. -/
theorem messages_invented_and_cut :
    (∃ s, SessionReached .wrap (htableInit htBaseSize) (fun _ _ => True) s ∧ s.closed = true ∧ s.sent = [] ∧
      s.messages = [str "set a b"] ∧ ¬s.messages <+: s.sent) ∧
    ∃ s, SessionReached .wrap (htableInit htBaseSize) (fun _ _ => True) s ∧ s.sent = [str "get key\n"] ∧
      s.messages = [str "ge"] ∧ ¬s.messages <+: s.sent := by
  constructor
  · have hrun : (Runs.run (Session.step .wrap) (.start (htableInit htBaseSize)) readOfNothing).map
        (fun s => (s.closed, s.sent, s.messages)) = .ok (true, [], [str "set a b"]) := by
      decide +kernel
    obtain ⟨s, hreached, heq⟩ := exists_reached (P := fun _ _ => True) hrun (by decide +kernel)
    obtain ⟨hclosed, hsent, hmessages⟩ : s.closed = true ∧ s.sent = [] ∧ s.messages = [str "set a b"] := by
      simpa using heq
    refine ⟨s, hreached, hclosed, hsent, hmessages, ?_⟩
    rw [hmessages, hsent]
    decide
  · have hrun : (Runs.run (Session.step .wrap) (.start (htableInit htBaseSize)) shortRead).map
        (fun s => (s.sent, s.messages)) = .ok ([str "get key\n"], [str "ge"]) := by
      decide +kernel
    obtain ⟨s, hreached, heq⟩ := exists_reached (P := fun _ _ => True) hrun (by decide +kernel)
    obtain ⟨hsent, hmessages⟩ := Prod.mk.inj heq
    refine ⟨s, hreached, hsent, hmessages, ?_⟩
    rw [hmessages, hsent]
    decide

end Session
end MemKey
