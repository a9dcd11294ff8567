import MemKey.Client

/-! `MemKey.c`: the server with all of its clients. It works on one connection at a time, in the order in which they
    were made; the clients of the others can send already. -/

namespace MemKey

/-- The keyspace, the connections in the order in which they were made, and how many of them `main` has taken up. -/
structure Server where
  ht : Keyspace
  clients : List Terminal
  accepted : ℕ

/-- What can happen next. The `i`-th connection moves by itself; it is the server that does its rounds. -/
inductive ServerAction where
  | connect
  | accept
  | client (i : ℕ) (a : TerminalAction)

namespace Server

/-- `htable_init(HT_BASE_SIZE)`, `init_server()`. -/
def start : Server := { ht := htableInit htBaseSize, clients := [], accepted := 0 }

/-- All connections share the keyspace. -/
def client (m : IntMode) (s : Server) (i : ℕ) (a : TerminalAction) : Except Fault Server :=
  match s.clients[i]? with
  | none => .ok s
  | some t => do
    let t ← Terminal.step m { t with session := { t.session with ht := s.ht } } a
    .ok { s with ht := t.session.ht, clients := s.clients.set i t }

def step (m : IntMode) (s : Server) : ServerAction → Except Fault Server
  | .connect => .ok { s with clients := s.clients ++ [.start s.ht] }
  | .accept => .ok { s with accepted := s.accepted + 1 }
  | .client i a => s.client m i a

/-- The connections that `accept_connection` has returned. -/
def served (s : Server) : List Terminal := s.clients.take s.accepted

/-- `close_server` has left the program. -/
def Exited (s : Server) : Prop := ∃ t ∈ s.clients, t.session.ended = some 1

/-- The actions that are possible. The next connection is taken up when `MemKey` has returned from the last one, and not
    with 1; only the connection that was taken up last is served. -/
def Enabled (s : Server) : ServerAction → Prop
  | .connect => ¬s.Exited
  | .accept => s.accepted < s.clients.length ∧
      ∀ t, s.served.getLast? = some t → ∃ code, t.session.ended = some code ∧ code ≠ 1
  | .client i a => ∃ t, s.clients[i]? = some t ∧ t.session.Enabled a.action ∧
      ∀ msg n, a.action = .serve msg n → i + 1 = s.accepted

instance (s : Server) : Decidable s.Exited := inferInstanceAs (Decidable (∃ t ∈ s.clients, t.session.ended = some 1))

instance {p : Prop} [Decidable p] : (a : SessionAction) → Decidable (∀ msg n, a = .serve msg n → p)
  | .serve msg n => decidable_of_iff p ⟨fun h _ _ _ => h, fun h => h msg n rfl⟩
  | .request _ | .receive .. | .close => .isTrue fun _ _ h => nomatch h

instance (s : Server) : (a : ServerAction) → Decidable (s.Enabled a)
  | .connect => inferInstanceAs (Decidable ¬s.Exited)
  | .accept => inferInstanceAs (Decidable (s.accepted < s.clients.length ∧
      ∀ t ∈ s.served.getLast?, ∃ code ∈ t.session.ended, code ≠ 1))
  | .client i a => inferInstanceAs (Decidable (∃ t ∈ s.clients[i]?, t.session.Enabled a.action ∧
      ∀ msg n, a.action = .serve msg n → i + 1 = s.accepted))

end Server
end MemKey
