import MemKey.Server
import MemKey.Theorems.Client
import MemKey.Theorems.Parser
import MemKey.Theorems.Session
import MemKey.Theorems.Texts

/-! The server with all of its clients. As long as every `read` takes just one message and no operation loses anything,
    the sessions are served one after another from one store, and each client prints the store's answers to its own
    lines. -/

namespace MemKey
open Outcome Resp

/-- The command that a line makes. -/
def commandOfLine (line : Bytes) : Command := commandOf (tokens line)

/-- The commands that the server has executed for the connection. -/
def Terminal.commands (t : Terminal) : List Command := t.session.messages.map commandOfLine

/-- What the command makes `MemKey` return, if it does. -/
def endCode (cmd : Command) : Option Int :=
  match cmd.type with
  | .QUIT => some 0
  | .SHUTDOWN => some 1
  | _ => none

/-- What the client is to print of the bytes of a reply. -/
def displayed (reply : Bytes) : Bytes :=
  match Reply.decode reply with
  | some (r, _) => display r
  | none => []

/-- The prompts of the client, and between them what it has printed of the replies. -/
def transcript (replies : List Bytes) : Bytes := prompt ++ replies.flatMap fun reply => displayed reply ++ prompt

/-- The reply is one value without NULs, or empty. -/
def Printable (reply : Bytes) : Prop := reply = [] ∨ ∃ r, reply = r.encode ∧ ReplyWithin {s : Bytes | 0 ∉ s} r

/-- The keyspace holds the store, and the store holds no NULs. -/
structure Serves (m : IntMode) (ht : Keyspace) (st : Store) : Prop where
  represents : Represents m ht st
  within : st.Within {s : Bytes | 0 ∉ s}

/-- What a round of the server does to the connection, for a store that the keyspace holds. -/
structure Round (m : IntMode) (st : Store) (s s' : Session) (line reply : Bytes) (st' : Store) : Prop where
  exec : ∃ replies, st.exec (commandOfLine line) = some (st', replies) ∧ reply ∈ replies
  holds : Serves m s'.ht st'
  requests : Between s'.sent s'.messages s'.toServer
  sent : s'.sent = s.sent
  messages : s'.messages = s.messages ++ [line]
  replies : s'.replies = s.replies ++ [reply]
  shown : s'.shown = s.shown
  ended : s'.ended = endCode (commandOfLine line)
  nul : 0 ∉ reply
  printable : endCode (commandOfLine line) = none → Printable reply
  toClient : s'.toClient = s.toClient ++ if endCode (commandOfLine line) = none then writeline reply else []

/-- A connection whose reads take whole messages: what was sent and has not arrived is on its way, the session ends with
    the first command that ends it, and the client has printed the replies that it has read. -/
structure Intact (t : Terminal) : Prop where
  requests : Between t.session.sent t.session.messages t.session.toServer
  replies : Between t.session.written t.session.shown t.session.toClient
  counted : t.session.replies.length = t.session.messages.length
  ended : t.session.ended = t.commands.getLast?.bind endCode
  goesOn : ∀ cmd ∈ t.commands.dropLast, endCode cmd = none
  printable : ∀ reply ∈ t.session.written, Printable reply
  printed : t.printed = transcript t.session.shown

/-- Where the `i`-th connection is, when the server has taken up `accepted` of them. -/
structure Turn (accepted i : ℕ) (t : Terminal) : Prop where
  intact : Intact t
  unserved : accepted ≤ i → t.session.messages = [] ∧ t.session.replies = []
  finished : i + 1 < accepted → t.session.ended = some 0

/-- The sessions that the server has taken up have been served one after another from one store. -/
structure Serial (m : IntMode) (sv : Server) : Prop where
  accepted : sv.accepted ≤ sv.clients.length
  turns : ∀ i t, sv.clients[i]? = some t → Turn sv.accepted i t
  store : ∃ st, Simulation.Plays Store.exec ∅ (sv.served.flatMap Terminal.commands) st
    (sv.served.flatMap (·.session.replies)) ∧ Serves m sv.ht st

/-- The first message of the stream makes a command whose operations lose nothing. -/
def Session.Spares (m : IntMode) (ht : Keyspace) (s : Session) : SessionAction → Prop
  | .serve _ _ => ∀ line rest, 0 ∉ line → s.toServer = writeline line ++ rest →
      (commandOfLine line).Meets m (HtableOp.Lossless m) ht
  | _ => True

/-- A `read` takes one message, and the command that the server then executes loses nothing. -/
def Server.Careful (m : IntMode) (s : Server) : ServerAction → Prop
  | .client i a => ∀ t, s.clients[i]? = some t → t.session.Whole a.action ∧ t.session.Spares m s.ht a.action
  | _ => True

/-- The reply that the client reads next is an error text without a NUL behind it. -/
def Session.Overruns (s : Session) (left : UInt8) : Prop :=
  ∃ r rest, 0 ∉ r.encode ∧ s.toClient = writeline r.encode ++ rest ∧ Unterminated left r

/-- How an action of a connection can fail: a wrapped probe or a command that crashes the server, or an error text
    without a NUL behind it. -/
def Server.Stops (m : IntMode) (s : Server) (e : Fault) : ServerAction → Prop
  | .client i ⟨.serve _ _, _⟩ => Escapes m e ∨ ∃ t st line rest, s.clients[i]? = some t ∧ 0 ∉ line ∧
      t.session.toServer = writeline line ++ rest ∧ Represents m s.ht st ∧ st.exec (commandOfLine line) = none
  | .client i ⟨.receive _ _, left⟩ => e = .outOfBounds ∧ ∃ t, s.clients[i]? = some t ∧ t.session.Overruns left
  | _ => False

/-- The servers that runs reach whose actions are possible and careful. -/
abbrev ServerReached (m : IntMode) : Server → Prop :=
  Runs.Reached (Server.step m) Server.start fun s a => s.Enabled a ∧ s.Careful m a

section Server
variable {m : IntMode} {ht : Keyspace} {s s' : Session} {t t' : Terminal} {sv : Server} {line reply : Bytes}
  {sent arrived : List Bytes} {stream : List UInt8} {n : ℕ} {st st' : Store} {cmd : Command}

/-! ### Messages -/

/-- A read of one message takes the one that was sent first, and leaves it in memory. -/
theorem Between.read (h : Between sent arrived stream) (htake : TakesMessage stream n) (hn : n ≤ bufSize)
    (msg : Buffer) : ∃ line rest junk, 0 ∉ line ∧ line.length < bufSize ∧ stream = writeline line ++ rest ∧
      readline msg stream n = .ok (line ++ 0 :: junk, rest) ∧ Between sent (arrived ++ [line]) rest ∧ line ∈ sent := by
  obtain ⟨way, rfl, hway, rfl⟩ := h
  obtain ⟨line, rest, hline, hstream, rfl⟩ := htake
  cases way with
  | nil => simp [writeline] at hstream
  | cons line' way =>
    rw [List.flatMap_cons] at hstream
    obtain ⟨hline', hway⟩ := List.forall_mem_cons.mp hway
    obtain ⟨rfl, rfl⟩ := writeline_inj hline' hline hstream
    obtain ⟨junk, hread⟩ := readline_writeline msg hline hn (way.flatMap writeline)
    have hlen : line'.length < bufSize := by
      simp only [writeline, List.length_append] at hn
      change line'.length + 1 + 1 ≤ bufSize at hn
      omega
    exact ⟨line', _, junk, hline, hlen, rfl, hread, ⟨way, by simp, hway, rfl⟩, by simp⟩

theorem nextToken_token {text token rest : Bytes} (h : nextToken text = some (token, rest)) : token ⊆ text := by
  cases hdrop : text.dropWhile isSpace with
  | nil =>
    rw [nextToken_nil hdrop] at h
    cases h
  | cons c rest' =>
    have hsub : c :: rest' ⊆ text := hdrop ▸ (List.dropWhile_sublist isSpace).subset
    cases hc : isQuote c with
    | true =>
      rw [nextToken_string hdrop hc] at h
      cases h
      exact fun b hb => hsub (List.mem_cons_of_mem c ((List.takeWhile_sublist _).subset hb))
    | false =>
      rw [nextToken_id hdrop hc] at h
      cases h
      exact fun b hb => hsub ((List.takeWhile_sublist _).subset hb)

/-- The tokens of a text are made of its bytes. -/
theorem tokens_subset {text token : Bytes} (h : token ∈ tokens text) : token ⊆ text := by
  induction hlen : text.length using Nat.strongRecOn generalizing text with
  | _ k ih =>
    cases htok : nextToken text with
    | none =>
      rw [tokens_none htok] at h
      cases h
    | some p =>
      obtain ⟨first, rest⟩ := p
      rw [tokens_some htok] at h
      rcases List.mem_cons.mp h with rfl | h
      · exact nextToken_token htok
      · have hrest := ih rest.length (hlen ▸ nextToken_shorter htok) h rfl
        exact fun b hb => nextToken_subset htok (hrest hb)

theorem nul_notMem_argv (hline : 0 ∉ line) : ∀ a ∈ (commandOfLine line).argv, 0 ∉ a := by
  intro a ha hmem
  refine hline (tokens_subset ?_ hmem)
  unfold commandOfLine at ha
  cases htok : tokens line with
  | nil =>
    rw [htok] at ha
    cases ha
  | cons token args =>
    rw [htok] at ha
    exact List.mem_cons_of_mem token ha

/-! ### Rounds of the server -/

theorem endCode_bare (hb : bareReply cmd.type = some reply) : endCode cmd = sessionEnd reply ∧ 0 ∉ reply := by
  rcases bareReply_cases hb with ⟨htype, rfl⟩ | ⟨htype, rfl⟩ | ⟨htype, rfl⟩ <;> rw [endCode, htype] <;> decide

theorem endCode_none (hb : bareReply cmd.type = none) : endCode cmd = none := by
  unfold endCode
  split
  · rw [show cmd.type = .QUIT from ‹_›] at hb
    cases hb
  · rw [show cmd.type = .SHUTDOWN from ‹_›] at hb
    cases hb
  · rfl

theorem Serves.interpret (h : Serves m ht st) (hargv : ∀ a ∈ cmd.argv, 0 ∉ a)
    (hs : cmd.Meets m (HtableOp.Lossless m) ht) :
    Ensures (interpret m ht cmd) (fun r => ∃ st' replies, st.exec cmd = some (st', replies) ∧ r.2 ∈ replies ∧
      Serves m r.1 st' ∧ 0 ∉ r.2 ∧ sessionEnd r.2 = endCode cmd ∧ (endCode cmd = none → Printable r.2))
      (fun e => Escapes m e ∨ st.exec cmd = none) := by
  refine (interpret_agrees h.represents hs).post fun r ⟨st', replies, hexec, hrep, hmem⟩ => ?_
  refine ⟨st', replies, hexec, hmem, ?_⟩
  cases hb : bareReply cmd.type with
  | none =>
    obtain ⟨hwithin, hreplies⟩ := exec_within h.within nul_notMem_own hargv hb st' replies hexec
    obtain ⟨v, hv, hvw⟩ := hreplies r.2 hmem
    have hend : sessionEnd r.2 = endCode cmd := by rw [hv, sessionEnd_encode, endCode_none hb]
    exact ⟨⟨hrep, hwithin⟩, hv ▸ nul_notMem_encode hvw, hend, fun _ => .inr ⟨v, hv, hvw⟩⟩
  | some reply =>
    rw [exec_bare hb] at hexec
    cases hexec
    obtain rfl : r.2 = reply := hmem
    obtain ⟨hend, hnul⟩ := endCode_bare hb
    refine ⟨⟨hrep, h.within⟩, hnul, hend.symm, fun hnone => ?_⟩
    rcases bareReply_cases hb with ⟨-, hreply⟩ | ⟨-, hreply⟩ | ⟨-, hreply⟩
    · rw [hend, hreply] at hnone
      cases hnone
    · rw [hend, hreply] at hnone
      cases hnone
    · exact .inl hreply

theorem takeWhile_nul (h : 0 ∉ reply) : reply.takeWhile (· ≠ 0) = reply :=
  List.takeWhile_eq_self_iff.mpr fun _ hb => decide_eq_true fun h0 => h (h0 ▸ hb)

theorem Session.serve_spec (hb : Between s.sent s.messages s.toServer) (hended : s.ended = none)
    (htake : TakesMessage s.toServer n) (hn : n ≤ bufSize) (h : Serves m s.ht st) (msg : Buffer)
    (hs : s.Spares m s.ht (.serve msg n)) :
    Ensures (s.serve m msg n) (fun s' => ∃ line reply st', Round m st s s' line reply st')
      (fun e => Escapes m e ∨ ∃ line rest, 0 ∉ line ∧ s.toServer = writeline line ++ rest ∧
        st.exec (commandOfLine line) = none) := by
  obtain ⟨line, rest, junk, hline, -, hstream, hread, hrest, -⟩ := hb.read htake hn msg
  have hparse : parse line = .ok (commandOfLine line) := (parse_tokens line hline).1
  have hrun := h.interpret (nul_notMem_argv hline) (hs line rest hline hstream)
  unfold Session.serve
  rw [hread, ok_bind]
  dsimp only
  rw [cstr_append hline, ok_bind, hparse, ok_bind]
  have hstops := hrun.mono (fun _ => id) fun e he =>
    he.imp_right fun hnone => (⟨line, rest, hline, hstream, hnone⟩ : ∃ line rest, 0 ∉ line ∧
      s.toServer = writeline line ++ rest ∧ st.exec (commandOfLine line) = none)
  refine hstops.bind fun r _ hr => ?_
  obtain ⟨st', replies, hexec, hmem, hholds, hnul, hend, hprint⟩ := hr
  rw [takeWhile_nul hnul, hend]
  cases hcode : endCode (commandOfLine line) with
  | none =>
    refine ⟨line, r.2, st', ⟨replies, hexec, hmem⟩, hholds, hrest, rfl, rfl, rfl, rfl, ?_, hnul, hprint, ?_⟩
    · exact hended.trans hcode.symm
    · rw [if_pos hcode]
  | some code =>
    refine ⟨line, r.2, st', ⟨replies, hexec, hmem⟩, hholds, hrest, rfl, rfl, rfl, rfl, hcode.symm, hnul, hprint, ?_⟩
    rw [if_neg (by rw [hcode]; exact Option.some_ne_none code), List.append_nil]

/-! ### Replies on the screen -/

theorem displayed_encode (r : Reply) : displayed r.encode = display r := by
  have hdec := r.decode_encode []
  rw [List.append_nil] at hdec
  rw [displayed, hdec]

theorem parseResp_printable (h : Printable reply) (hlen : reply.length < 2 ^ 31) (left : UInt8) (rest : List UInt8) :
    Ensures (parseResp (reply ++ 0 :: rest) left) (· = displayed reply)
      (fun e => e = .outOfBounds ∧ ∃ r, reply = r.encode ∧ Unterminated left r) := by
  rcases h with rfl | ⟨r, rfl, hr⟩
  · rfl
  · obtain ⟨hprint, hfail⟩ := parseResp_encode (nul_notMem_encode hr) hlen left rest
    by_cases hu : Unterminated left r
    · rw [hfail hu]
      exact ⟨rfl, r, rfl, hu⟩
    · rw [hprint hu]
      exact (displayed_encode r).symm

theorem transcript_append (replies : List Bytes) (reply : Bytes) :
    transcript (replies ++ [reply]) = transcript replies ++ displayed reply ++ prompt := by
  simp [transcript]

/-! ### One connection -/

theorem Intact.start (ht : Keyspace) : Intact (.start ht) where
  requests := ⟨[], rfl, by simp, rfl⟩
  replies := ⟨[], rfl, by simp, rfl⟩
  counted := rfl
  ended := rfl
  goesOn _ h := nomatch h
  printable _ h := nomatch h
  printed := rfl

theorem Intact.keyspace (h : Intact t) (ht : Keyspace) : Intact { t with session := { t.session with ht } } :=
  ⟨h.requests, h.replies, h.counted, h.ended, h.goesOn, h.printable, h.printed⟩

theorem Intact.request (h : Intact t) (hline : 0 ∉ line) : Intact { t with session := t.session.request line } :=
  ⟨h.requests.push hline, h.replies, h.counted, h.ended, h.goesOn, h.printable, h.printed⟩

theorem Intact.close (h : Intact t) : Intact { t with session := { t.session with closed := true } } :=
  ⟨h.requests, h.replies, h.counted, h.ended, h.goesOn, h.printable, h.printed⟩

theorem Round.commands (h : Round m st t.session s' line reply st') :
    Terminal.commands { t with session := s' } = t.commands ++ [commandOfLine line] := by
  rw [Terminal.commands, h.messages, List.map_append]
  rfl

/-- As long as the session goes on, no command has ended it. -/
theorem Intact.running (h : Intact t) (hended : t.session.ended = none) : ∀ cmd ∈ t.commands, endCode cmd = none := by
  have hlast := h.ended
  have hgoesOn := h.goesOn
  intro cmd hcmd
  rcases List.eq_nil_or_concat t.commands with hnil | ⟨cmds, last, heq⟩
  · rw [hnil] at hcmd
    cases hcmd
  · rw [List.concat_eq_append] at heq
    rw [heq, List.getLast?_concat, hended] at hlast
    rw [heq, List.dropLast_concat] at hgoesOn
    rw [heq] at hcmd
    rcases List.mem_append.mp hcmd with hcmd | hcmd
    · exact hgoesOn cmd hcmd
    · exact List.mem_singleton.mp hcmd ▸ hlast.symm

theorem Intact.code (h : Intact t) {code : Int} (hcode : t.session.ended = some code) : code = 0 ∨ code = 1 := by
  obtain ⟨cmd, -, hend⟩ := Option.bind_eq_some_iff.mp (h.ended.symm.trans hcode)
  unfold endCode at hend
  split at hend
  · exact .inl (Option.some.inj hend).symm
  · exact .inr (Option.some.inj hend).symm
  · cases hend

theorem Intact.round (h : Intact t) (hended : t.session.ended = none) (hr : Round m st t.session s' line reply st') :
    Intact { t with session := s' } := by
  have hbefore : t.session.written = t.session.replies := if_pos hended
  have hreplies := h.replies
  have hprintable := h.printable
  rw [hbefore] at hreplies hprintable
  have hgone := h.running hended
  have hwritten : s'.written = t.session.replies ++ if endCode (commandOfLine line) = none then [reply] else [] := by
    rw [Session.written, hr.ended, hr.replies]
    split <;> simp
  refine ⟨hr.requests, ?_, ?_, ?_, ?_, ?_, ?_⟩
  · change Between s'.written s'.shown s'.toClient
    rw [hwritten, hr.shown, hr.toClient]
    split
    · exact hreplies.push hr.nul
    · rwa [List.append_nil, List.append_nil]
  · change s'.replies.length = s'.messages.length
    rw [hr.replies, hr.messages, List.length_append, List.length_append, h.counted]
    rfl
  · rw [hr.commands, List.getLast?_concat]
    exact hr.ended
  · rw [hr.commands, List.dropLast_concat]
    exact hgone
  · change ∀ o ∈ s'.written, Printable o
    rw [hwritten]
    intro o ho
    rcases List.mem_append.mp ho with ho | ho
    · exact hprintable o ho
    · split at ho
      · exact List.mem_singleton.mp ho ▸ hr.printable ‹_›
      · cases ho
  · change t.printed = transcript s'.shown
    rw [hr.shown, h.printed]

theorem Intact.receive (h : Intact t) (htake : TakesMessage t.session.toClient n) (hn : n ≤ bufSize) (msg : Buffer)
    (left : UInt8) :
    Ensures (t.receive msg n left)
      (fun t' => Intact t' ∧ t'.session.ht = t.session.ht ∧ t'.session.messages = t.session.messages ∧
        t'.session.replies = t.session.replies ∧ t'.session.ended = t.session.ended)
      (fun e => e = .outOfBounds ∧ t.session.Overruns left) := by
  obtain ⟨reply, rest, junk, hnul, hlen, hstream, hread, hrest, hmem⟩ := h.replies.read htake hn msg
  have hresp := parseResp_printable (h.printable reply hmem) (hlen.trans (by decide)) left junk
  have hshown : Ensures (parseResp (reply ++ 0 :: junk) left) (· = displayed reply)
      (fun e => e = .outOfBounds ∧ t.session.Overruns left) := by
    refine hresp.mono (fun _ => id) fun e he => ?_
    obtain ⟨he, r, rfl, hu⟩ := he
    exact ⟨he, r, rest, hnul, hstream, hu⟩
  unfold Terminal.receive
  rw [hread, ok_bind]
  refine hshown.bind fun text _ htext => ?_
  rw [Session.receive_eq hread (cstr_append hnul junk), ok_bind]
  refine ⟨⟨h.requests, hrest, h.counted, h.ended, h.goesOn, h.printable, ?_⟩, rfl, rfl, rfl, rfl⟩
  change t.printed ++ text ++ prompt = transcript (t.session.shown ++ [reply])
  rw [transcript_append, h.printed, htext]

/-! ### One action of the server -/

section Lists
variable {α β : Type} {l : List α} {i j k : ℕ} {a b : α} {f : α → List β}

theorem getElem?_set_cases (h : (l.set i a)[j]? = some b) : j = i ∧ b = a ∨ j ≠ i ∧ l[j]? = some b := by
  rw [List.getElem?_set] at h
  split at h
  · split at h
    · exact .inl ⟨Eq.symm ‹_›, (Option.some.inj h).symm⟩
    · cases h
  · exact .inr ⟨Ne.symm ‹_›, h⟩

theorem flatMap_take_set (hi : l[i]? = some b) (hf : f a = f b) : ((l.set i a).take k).flatMap f = (l.take k).flatMap f := by
  have hmap : (l.set i a).map f = l.map f := by
    obtain ⟨hlt, rfl⟩ := List.getElem?_eq_some_iff.mp hi
    rw [List.map_set, hf, ← List.map_set, List.set_getElem_self]
  rw [List.flatMap_def, List.flatMap_def, List.map_take, List.map_take, hmap]

theorem flatMap_take_last (hi : l[i]? = some b) (hk : i + 1 = k) {more : List β} (hf : f a = f b ++ more) :
    ((l.set i a).take k).flatMap f = (l.take k).flatMap f ++ more := by
  subst hk
  have hlt : i < l.length := (List.getElem?_eq_some_iff.mp hi).1
  have hset : (l.set i a)[i]? = some a := List.getElem?_set_self hlt
  rw [List.take_add_one, List.take_add_one, hi, hset, List.take_set_of_le (Nat.le_refl i)]
  simp [hf]

end Lists

theorem Serial.start : Serial m Server.start where
  accepted := Nat.le_refl 0
  turns _ _ h := nomatch h
  store := ⟨∅, .nil, Maps.init, fun _ _ h => nomatch h⟩

theorem Turn.start {accepted i : ℕ} (hi : accepted ≤ i) (ht : Keyspace) : Turn accepted i (.start ht) where
  intact := .start ht
  unserved _ := ⟨rfl, rfl⟩
  finished hlt := by omega

theorem Serial.connect (h : Serial m sv) : Serial m { sv with clients := sv.clients ++ [.start sv.ht] } := by
  have hserved : (sv.clients ++ [Terminal.start sv.ht]).take sv.accepted = sv.served :=
    List.take_append_of_le_length h.accepted
  refine ⟨?_, fun i t ht => ?_, ?_⟩
  · exact h.accepted.trans (by simp)
  · rw [List.getElem?_append] at ht
    split at ht
    · exact h.turns i t ht
    · obtain rfl := List.mem_singleton.mp (List.mem_of_getElem? ht)
      exact .start (h.accepted.trans (by omega)) sv.ht
  · unfold Server.served
    dsimp only
    rw [hserved]
    exact h.store

theorem Serial.accept (h : Serial m sv) (hen : sv.Enabled .accept) : Serial m { sv with accepted := sv.accepted + 1 } := by
  obtain ⟨hlt, hlast⟩ := hen
  obtain ⟨t, ht⟩ : ∃ t, sv.clients[sv.accepted]? = some t := ⟨_, List.getElem?_eq_getElem hlt⟩
  obtain ⟨hmessages, hreplies⟩ := (h.turns _ t ht).unserved (Nat.le_refl _)
  have hserved : sv.clients.take (sv.accepted + 1) = sv.served ++ [t] := by rw [List.take_add_one, ht]; rfl
  refine ⟨hlt, fun i t' ht' => ?_, ?_⟩
  · have hturn := h.turns i t' ht'
    refine ⟨hturn.intact, fun hi => hturn.unserved (Nat.le_of_succ_le hi), fun hi => ?_⟩
    rcases Nat.lt_or_ge (i + 1) sv.accepted with hi' | hi'
    · exact hturn.finished hi'
    · -- The session that was served last is over, and the server is still running.
      have heq : sv.accepted = i + 1 := Nat.le_antisymm hi' (Nat.le_of_lt_succ hi)
      have hserved' : sv.served = sv.clients.take i ++ [t'] := by
        rw [Server.served, heq, List.take_add_one, ht']
        rfl
      obtain ⟨code, hcode, hne⟩ := hlast t' (by rw [hserved', List.getLast?_concat])
      rcases hturn.intact.code hcode with rfl | rfl
      · exact hcode
      · exact absurd rfl hne
  · obtain ⟨st, hplays, hserves⟩ := h.store
    refine ⟨st, ?_, hserves⟩
    unfold Server.served
    dsimp only
    rw [hserved, List.flatMap_append, List.flatMap_append]
    simpa [Terminal.commands, hmessages, hreplies] using hplays

/-- An action on a connection that leaves what the server has done for it. -/
theorem Serial.stay {i : ℕ} (h : Serial m sv) (ht : sv.clients[i]? = some t) (hintact : Intact t')
    (hmessages : t'.session.messages = t.session.messages) (hreplies : t'.session.replies = t.session.replies)
    (hended : t'.session.ended = t.session.ended) : Serial m { sv with clients := sv.clients.set i t' } := by
  have hturn := h.turns i t ht
  have hcommands : t'.commands = t.commands := by rw [Terminal.commands, Terminal.commands, hmessages]
  refine ⟨by simpa using h.accepted, fun j u hu => ?_, ?_⟩
  · rcases getElem?_set_cases hu with ⟨rfl, rfl⟩ | ⟨-, hu⟩
    · refine ⟨hintact, fun hj => ?_, fun hj => hended.trans (hturn.finished hj)⟩
      rw [hmessages, hreplies]
      exact hturn.unserved hj
    · exact h.turns j u hu
  · obtain ⟨st, hplays, hserves⟩ := h.store
    refine ⟨st, ?_, hserves⟩
    unfold Server.served
    dsimp only
    rw [flatMap_take_set ht hcommands, flatMap_take_set ht hreplies]
    exact hplays

/-- A round of the server on the connection that it has taken up last. -/
theorem Serial.round {i : ℕ} (h : Serial m sv) (ht : sv.clients[i]? = some t) (hlast : i + 1 = sv.accepted)
    (hended : t.session.ended = none) (hplays : Simulation.Plays Store.exec ∅ (sv.served.flatMap Terminal.commands) st
      (sv.served.flatMap (·.session.replies)))
    (hr : Round m st { t.session with ht := sv.ht } s' line reply st') :
    Serial m { sv with ht := s'.ht, clients := sv.clients.set i { t with session := s' } } := by
  have hturn := h.turns i t ht
  have hround : Round m st ({ t with session := { t.session with ht := sv.ht } } : Terminal).session s' line reply st' := hr
  have hintact : Intact { t with session := s' } := (hturn.intact.keyspace sv.ht).round hended hround
  refine ⟨by simpa using h.accepted, fun j u hu => ?_, ?_⟩
  · rcases getElem?_set_cases hu with ⟨rfl, rfl⟩ | ⟨-, hu⟩
    · have hnow : ¬sv.accepted ≤ j ∧ ¬j + 1 < sv.accepted := by omega
      exact ⟨hintact, fun hj => absurd hj hnow.1, fun hj => absurd hj hnow.2⟩
    · exact h.turns j u hu
  · obtain ⟨replies, hexec, hmem⟩ := hr.exec
    refine ⟨st', ?_, hr.holds⟩
    unfold Server.served
    dsimp only
    rw [flatMap_take_last ht hlast hround.commands, flatMap_take_last ht hlast hr.replies]
    exact hplays.append (.cons hexec hmem .nil)

theorem Serial.client {i : ℕ} {a : TerminalAction} (h : Serial m sv) (hen : sv.Enabled (.client i a))
    (hcare : sv.Careful m (.client i a)) :
    Ensures (sv.step m (.client i a)) (Serial m) (sv.Stops m · (.client i a)) := by
  obtain ⟨t, ht, hen, hserving⟩ := hen
  obtain ⟨hwhole, hspares⟩ := hcare t ht
  have hintact := (h.turns i t ht).intact.keyspace sv.ht
  obtain ⟨action, left⟩ := a
  change Ensures (sv.client m i ⟨action, left⟩) _ _
  unfold Server.client
  rw [ht]
  cases action with
  | request line => exact h.stay ht (hintact.request hen.2.2.2.2.1) rfl rfl rfl
  | close => exact h.stay ht hintact.close rfl rfl rfl
  | receive msg n =>
    have hreceive := hintact.receive hwhole hen.2.2.le.2 msg left
    have hstops := hreceive.mono (fun _ => id) fun e he =>
      (⟨he.1, t, ht, he.2⟩ : sv.Stops m e (.client i ⟨.receive msg n, left⟩))
    refine Ensures.bind hstops fun t' _ ht' => ?_
    obtain ⟨hintact', hht, hmessages, hreplies, hended⟩ := ht'
    have hstay := h.stay ht hintact' hmessages hreplies hended
    have hht : t'.session.ht = sv.ht := hht
    rw [hht]
    exact hstay
  | serve msg n =>
    obtain ⟨st, hplays, hserves⟩ := h.store
    have hround := Session.serve_spec hintact.requests hen.1 hwhole hen.2.le.2 hserves msg hspares
    have hstops := hround.mono (fun _ => id) fun e he => he.imp_right fun ⟨line, rest, hline, hstream, hnone⟩ =>
      (⟨t, st, line, rest, ht, hline, hstream, hserves.represents, hnone⟩ : ∃ t st line rest,
        sv.clients[i]? = some t ∧ 0 ∉ line ∧ t.session.toServer = writeline line ++ rest ∧ Represents m sv.ht st ∧
          st.exec (commandOfLine line) = none)
    refine Ensures.bind (Q := fun t' => ∃ s' line reply st', t' = { t with session := s' } ∧
      Round m st { t.session with ht := sv.ht } s' line reply st') (hstops.bind fun s' _ hs' => ?_) fun t' _ ht' => ?_
    · obtain ⟨line, reply, st', hr⟩ := hs'
      exact ⟨s', line, reply, st', rfl, hr⟩
    · obtain ⟨s', line, reply, st', rfl, hr⟩ := ht'
      exact h.round ht (hserving msg n rfl) hen.1 hplays hr

theorem Serial.step {a : ServerAction} (h : Serial m sv) (hen : sv.Enabled a) (hcare : sv.Careful m a) :
    Ensures (sv.step m a) (Serial m) (sv.Stops m · a) := by
  cases a with
  | connect => exact h.connect
  | accept => exact h.accept hen
  | client i a => exact h.client hen hcare

theorem ServerReached.serial (h : ServerReached m sv) : Serial m sv :=
  h.invariant (Serial m) .start fun _ _ _ hinv ⟨hen, hcare⟩ hs => (hinv.step hen hcare).of_ok hs

/-! ### Whole runs -/

/-- The n-th reply that a client has read is the one to its n-th line. -/
theorem Intact.nth (h : Intact t) (hn : t.session.shown[n]? = some reply) : ∃ line, t.session.sent[n]? = some line ∧
    t.session.messages[n]? = some line ∧ t.session.replies[n]? = some reply := by
  have hreply : t.session.replies[n]? = some reply :=
    getElem?_of_prefix (h.replies.isPrefix.trans t.session.written_prefix) hn
  have hlt : n < t.session.messages.length := h.counted ▸ (List.getElem?_eq_some_iff.mp hreply).1
  have hmsg : t.session.messages[n]? = some t.session.messages[n] := List.getElem?_eq_getElem hlt
  exact ⟨_, getElem?_of_prefix h.requests.isPrefix hmsg, hmsg, hreply⟩

/-- After `SHUTDOWN` the clients are on their own. -/
theorem Serial.exited {a : ServerAction} (h : Serial m sv) (hexit : sv.Exited) (hen : sv.Enabled a) :
    ∃ i b, a = .client i b ∧ ∀ msg n, b.action ≠ .serve msg n := by
  obtain ⟨t, hmem, hended⟩ := hexit
  obtain ⟨i, ht⟩ := List.mem_iff_getElem?.mp hmem
  have hturn := h.turns i t ht
  have hserved : i < sv.accepted := by
    by_contra hle
    have hnone := hturn.intact.ended
    rw [hended, Terminal.commands, (hturn.unserved (Nat.le_of_not_lt hle)).1] at hnone
    cases hnone
  have hlast : i + 1 = sv.accepted := by
    by_contra hne
    have hquit := hturn.finished (Nat.lt_of_le_of_ne hserved hne)
    rw [hended] at hquit
    cases hquit
  cases a with
  | connect => exact absurd ⟨t, hmem, hended⟩ hen
  | accept =>
    have hlastServed : sv.served.getLast? = some t := by
      rw [Server.served, ← hlast, List.take_add_one, ht]
      exact List.getLast?_concat
    obtain ⟨code, hcode, hne⟩ := hen.2 t hlastServed
    cases hcode.symm.trans hended
    exact absurd rfl hne
  | client j b =>
    refine ⟨j, b, rfl, fun msg n hserve => ?_⟩
    obtain ⟨t', ht', henabled, hserving⟩ := hen
    obtain rfl : j = i := Nat.succ.inj ((hserving msg n hserve).trans hlast.symm)
    cases ht'.symm.trans ht
    rw [hserve] at henabled
    cases hended.symm.trans henabled.1

/-- The sessions are served one after another from one store, which outlives them: taken together, their replies are
    those that the store allows for their commands, and the keyspace holds the store. Each client has printed the
    replies to its own lines, in order. An action fails only where a probe wraps, the store says that the command
    crashes the server, or an error text has no NUL behind it, and after `SHUTDOWN` the server does nothing. -/
theorem clients_served_in_turn (h : ServerReached m sv) :
    Serial m sv ∧
    (∀ (i : ℕ) (t : Terminal) (n : ℕ) (reply : Bytes), sv.clients[i]? = some t → t.session.shown[n]? = some reply →
      ∃ line, t.session.sent[n]? = some line ∧ t.session.messages[n]? = some line ∧
        t.session.replies[n]? = some reply) ∧
    (∀ a, sv.Enabled a → sv.Careful m a → Ensures (sv.step m a) (fun _ => True) (sv.Stops m · a)) ∧
    (sv.Exited → ∀ a, sv.Enabled a → ∃ i b, a = .client i b ∧ ∀ msg n, b.action ≠ .serve msg n) := by
  have hserial := h.serial
  refine ⟨hserial, fun i t n reply ht hn => (hserial.turns i t ht).intact.nth hn, fun a hen hcare => ?_, ?_⟩
  · exact (hserial.step hen hcare).post fun _ _ => trivial
  · exact fun hexit a hen => hserial.exited hexit hen

end Server

/-! ### Two clients -/

theorem spares_iff {m : IntMode} {ht : Keyspace} {s : Session} {msg : Buffer} {n : ℕ} : s.Spares m ht (.serve msg n) ↔
    (s.toServer.take (writeline (firstLine s.toServer)).length = writeline (firstLine s.toServer) →
      ∀ cmd, parse (firstLine s.toServer) = .ok cmd → cmd.Meets m (HtableOp.Lossless m) ht) := by
  have hparse : parse (firstLine s.toServer) = .ok (commandOfLine (firstLine s.toServer)) :=
    (parse_tokens _ (nul_notMem_firstLine _)).1
  constructor
  · intro h htake cmd hcmd
    obtain ⟨rest, hline, hstream⟩ := exists_message_iff.mpr ⟨rfl, htake⟩
    cases hparse.symm.trans hcmd
    exact h _ rest hline hstream
  · intro h line rest hline hstream
    obtain ⟨rfl, htake⟩ := exists_message_iff.mp ⟨rest, hline, hstream⟩
    exact h htake _ hparse

instance (m : IntMode) (ht : Keyspace) (s : Session) : (a : SessionAction) → Decidable (s.Spares m ht a)
  | .serve .. => decidable_of_iff _ spares_iff.symm
  | .request _ | .receive .. | .close => .isTrue trivial

instance (m : IntMode) (s : Server) : (a : ServerAction) → Decidable (s.Careful m a)
  | .client i a => inferInstanceAs (Decidable (∀ t ∈ s.clients[i]?,
      t.session.Whole a.action ∧ t.session.Spares m s.ht a.action))
  | .connect | .accept => .isTrue trivial

/-- The second client sends a line and waits. The first one stores a string and leaves, and the second one reads it. -/
-- Irreducible, so that nothing but the kernel runs it.
@[irreducible] def twoClients : List ServerAction :=
  [.connect, .connect, .accept, .client 1 ⟨.request (str "get k\n"), 0⟩, .client 0 ⟨.request (str "set k v\n"), 0⟩,
    .client 0 ⟨.serve cleanBuffer 10, 0⟩, .client 0 ⟨.receive cleanBuffer 10, 0⟩, .client 0 ⟨.request (str "quit\n"), 0⟩,
    .client 0 ⟨.serve staleBuffer 7, 0⟩, .accept, .client 1 ⟨.serve staleBuffer 8, 0⟩, .client 1 ⟨.receive cleanBuffer 9, 0⟩]

theorem clients_served_in_turn_two : ∃ sv, ServerReached .wrap sv ∧ Serial .wrap sv ∧
    sv.clients.map (fun t => (t.session.ended, t.printed)) =
      [(some 0, str "redis-kw> \"OK\"\nredis-kw> "), (none, str "redis-kw> \"v\"\nredis-kw> ")] := by
  have hrun : (Runs.run (Server.step .wrap) .start twoClients).map
      (fun sv => sv.clients.map fun t => (t.session.ended, t.printed)) =
        .ok [(some 0, str "redis-kw> \"OK\"\nredis-kw> "), (none, str "redis-kw> \"v\"\nredis-kw> ")] := by
    decide +kernel
  have hcareful : Runs.Along (Server.step .wrap) (fun s a => s.Enabled a ∧ s.Careful .wrap a) .start twoClients := by
    decide +kernel
  obtain ⟨sv, hsv, hprinted⟩ := map_eq_ok.mp hrun
  have hreached : ServerReached .wrap sv := Runs.Reached.init.along hcareful hsv
  exact ⟨sv, hreached, (clients_served_in_turn hreached).1, hprinted⟩

end MemKey
