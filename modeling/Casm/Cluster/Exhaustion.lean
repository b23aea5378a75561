import Casm.Cluster.Handler

namespace Casm.Cluster.Handler

variable {records : List ViewRecord} {s s' : State} {events : List Event}

/-- The call of `Next` is not blocked forever: there are steps after which it has
returned nil. -/
def Returns (records : List ViewRecord) (s : State) : Prop :=
  ∃ s', (machine records).Reaches s s' ∧ s'.next = .idle ∧ s'.results = s.results ++ [none]

/-- Past its records the iterator returns nil, and after `Shutdown` every call of
`Next` returns. -/
structure StaysExhausted (records : List ViewRecord) (s : State) : Prop where
  results : InOrder records s.results
  returns : s.closed = true → s.next ≠ .idle → Returns records s

/-- The number of calls of `Next` that return: one for every record and one for
the end, and if there was a record then one more, because the first token is taken by
a call of `Recv` that takes another one before it returns. -/
def callsServed (records : List ViewRecord) : Nat :=
  records.length + 1 + min records.length 1

/-- There is room for a call of `Next`. -/
def Served (records : List ViewRecord) (s : State) (e : Event) : Prop :=
  e = .call → s.results.length < callsServed records

/-- `Next` waits with a token for a channel that no one empties. -/
structure Blocked (s : State) : Prop where
  closed : s.closed = true
  noCalls : s.calls = []
  recv : s.recv = .idle
  next : s.next = .putting
  full : s.sync = true

/-- Not even a cancellation helps. -/
theorem Blocked.step (blocked : Blocked s) {e : Event} (step : s.step e = some s') : Blocked s' := by
  obtain ⟨closed, noCalls, recv, next, full⟩ := blocked
  cases e with
  | cancel =>
    cases step
    exact ⟨closed, noCalls, recv, next, full⟩
  | call => simp [State.step, next] at step
  | put => simp [State.step, full] at step
  | recv => simp [State.step, recv, noCalls] at step
  | token => simp [State.step, recv] at step
  | handoff => simp [State.step, recv] at step
  | release => simp [State.step, recv] at step
  | shutdown => simp [State.step, recv, noCalls, closed] at step
  | receiveClosed => simp [State.step, next] at step
  | abort => simp [State.step, recv] at step

theorem Blocked.not_staysExhausted (blocked : Blocked s) : ¬ StaysExhausted records s := by
  intro stays
  obtain ⟨s', reaches, idle, -⟩ := stays.returns blocked.closed (by rw [blocked.next]; decide)
  have still := reaches.kept (P := Blocked) (fun _ _ _ earlier step => earlier.step step) blocked
  cases still.next.symm.trans idle

/-- The flag of the handler is set for a record. -/
theorem Handshake.init_turn (hs : Handshake records s) (has : s.init = true → 0 < records.length)
    (turn : Turn records s s') : s'.init = true → 0 < records.length := by
  cases turn with
  | @token r waiting full =>
    intro _
    have isRecord := (hs.current r (by rw [waiting]; rfl)).1
    exact Nat.zero_lt_of_lt (List.getElem?_eq_some_iff.mp isRecord).1
  | _ => exact has

/-- When the handler is shut down, its calls have taken all tokens that they take. -/
theorem Handshake.tokens_of_closed (hs : Handshake records s) (has : s.init = true → 0 < records.length)
    (closed : s.closed = true) :
    s.results.length + s.next.asked + 1 = callsServed records + s.sync.toNat := by
  have tokens := hs.tokens
  have all := (hs.ended closed).1
  have taken : s.init.toNat = min records.length 1 := by
    cases isInit : s.init with
    | false =>
      have none := hs.fresh isInit
      rw [← all, none]
      rfl
    | true =>
      have some := has isInit
      rw [Bool.toNat_true]
      omega
  rw [callsServed]
  omega

theorem Handshake.results_le (hs : Handshake records s) (notClosed : s.closed = false) :
    s.results.length ≤ records.length := by
  have counted := hs.counted notClosed
  have within := hs.within
  rcases s.recv.sent_cases with unsent | ⟨r, delivered⟩
  · omega
  · have isRecord := (hs.current r (by rw [delivered]; rfl)).1
    have inside := (List.getElem?_eq_some_iff.mp isRecord).1
    rw [delivered] at counted
    simp only [RecvPhase.sent] at counted
    omega

theorem validate_next (s : State) (rec : ViewRecord) :
    (s.validate rec).next = s.next ∧ (s.validate rec).results = s.results := by
  rw [State.validate]
  cases newRecord rec with
  | error fault => exact ⟨rfl, rfl⟩
  | ok r => exact ⟨rfl, rfl⟩

theorem startRecv_next (s : State) (arg : Except Fault ViewRecord) (rest : List (Except Fault ViewRecord)) :
    (s.startRecv arg rest).next = s.next ∧ (s.startRecv arg rest).results = s.results := by
  cases arg with
  | error fault => exact ⟨rfl, rfl⟩
  | ok rec =>
    rw [State.startRecv]
    split
    · exact validate_next ..
    · exact ⟨rfl, rfl⟩

/-- `Next` begins with its call, and returns nothing before it has put a token. -/
theorem call_or_putting {e : Event} (step : s.step e = some s') (putting : s'.next = .putting) :
    e = .call ∨ s.next = .putting ∧ s'.results = s.results := by
  cases e <;> simp only [State.step] at step
  case call => exact .inl rfl
  case put =>
    split at step <;> cases step
    cases putting
  case recv =>
    split at step <;> cases step
    rename_i arg rest _ _
    obtain ⟨sameNext, sameResults⟩ := startRecv_next s arg rest
    exact .inr ⟨sameNext.symm.trans putting, sameResults⟩
  case token =>
    split at step <;> cases step
    rename_i rec _ _
    obtain ⟨sameNext, sameResults⟩ := validate_next { s with sync := false, init := true } rec
    exact .inr ⟨sameNext.symm.trans putting, sameResults⟩
  case handoff =>
    split at step <;> cases step
    cases putting
  case release =>
    split at step <;> cases step
    exact .inr ⟨putting, rfl⟩
  case shutdown =>
    split at step <;> cases step
    exact .inr ⟨putting, rfl⟩
  case receiveClosed =>
    split at step <;> cases step
    cases putting
  case cancel =>
    cases step
    exact .inr ⟨putting, rfl⟩
  case abort =>
    split at step <;> cases step
    exact .inr ⟨putting, rfl⟩

/-- A call that has put its token returns nil. -/
theorem returns_of_receiving (closed : s.closed = true) (receiving : s.next = .receiving) :
    Returns records s := by
  refine ⟨{ s with next := .idle, results := s.results ++ [none] }, .single (e := .receiveClosed) ?_, rfl, rfl⟩
  show s.step .receiveClosed = _
  simp only [State.step, receiving, closed]

theorem returns_of_putting (closed : s.closed = true) (putting : s.next = .putting) (empty : s.sync = false) :
    Returns records s := by
  have put : (machine records).step s .put = some { s with sync := true, next := .receiving } :=
    if_pos ⟨putting, empty⟩
  have received : Returns records { s with sync := true, next := .receiving } := returns_of_receiving closed rfl
  obtain ⟨s', reaches, returned⟩ := received
  exact ⟨s', (Machine.Reaches.single put).trans reaches, returned⟩

/-- A call that is not served finds the token of an earlier one. -/
theorem Handshake.blocked_of_not_served (hs : Handshake records s) (has : s.init = true → 0 < records.length)
    (idle : s.next = .idle) (notServed : ¬ s.results.length < callsServed records) :
    Blocked { s with next := .putting } := by
  have closed : s.closed = true := by
    by_contra notClosed
    have bound := hs.results_le (Bool.eq_false_of_not_eq_true notClosed)
    rw [callsServed] at notServed
    omega
  have tokens := hs.tokens_of_closed has closed
  rw [idle] at tokens
  simp only [NextPhase.asked] at tokens
  have atMost := s.sync.toNat_le
  have full : s.sync = true := Bool.toNat_eq_one.mp (by omega)
  have calls := hs.calls
  rw [(hs.ended closed).1, hs.idle_of_closed closed, RecvPhase.busy, Nat.add_zero, List.drop_length] at calls
  exact ⟨closed, calls, hs.idle_of_closed closed, rfl, full⟩

theorem Handshake.staysExhausted (hs : Handshake records s) (has : s.init = true → 0 < records.length)
    (served : s.next = .putting → s.results.length < callsServed records) : StaysExhausted records s := by
  refine ⟨hs.results, fun closed inNext => ?_⟩
  cases next : s.next with
  | idle => exact absurd next inNext
  | receiving => exact returns_of_receiving closed next
  | putting =>
    have room := served next
    have tokens := hs.tokens_of_closed has closed
    rw [next] at tokens
    simp only [NextPhase.asked] at tokens
    exact returns_of_putting closed next (Bool.toNat_eq_zero.mp (by omega))

/-- A call that waits for its token was served when it was made. -/
theorem served_step {e : Event} (earlier : s.next = .putting → s.results.length < callsServed records)
    (served : Served records s e) (step : s.step e = some s') :
    s'.next = .putting → s'.results.length < callsServed records := by
  intro putting
  rcases call_or_putting step putting with isCall | ⟨wasPutting, same⟩
  · cases isCall
    obtain ⟨_, isNext⟩ := Option.ite_none_right_eq_some.mp step
    cases isNext
    exact served rfl
  · rw [same]
    exact earlier wasPutting

/-- Without cancellation and for well-formed records, an exhausted iterator stays
exhausted exactly as long as the calls of `Next` are served. A call puts a token also
after the end, where no call of `Recv` takes it. -/
theorem staysExhausted_iff (records : List ViewRecord) (wellFormed : ∀ r ∈ records, newRecord r = .ok r)
    (events : List Event) (uncancelled : .cancel ∉ events) :
    (machine records).Always (fun _ s => StaysExhausted records s) events ↔
      (machine records).Throughout (fun _ s e => Served records s e) events := by
  have known : (machine records).Always
      (fun _ s => Handshake records s ∧ (s.init = true → 0 < records.length)) events := by
    refine always_handshake (C := fun _ _ _ => True) wellFormed uncancelled (fun _ _ _ _ _ _ _ => trivial)
      (fun isInit => by cases isInit) ?_
    intro before s e s' hs has _ turn _
    exact hs.init_turn has turn
  constructor
  · intro stays before e s s' isBefore reached step isCall
    obtain ⟨hs, has⟩ := known before s ((List.prefix_append before [e]).trans isBefore) reached
    have after := stays (before ++ [e]) s' isBefore (Machine.run_concat.mpr ⟨s, reached, step⟩)
    by_contra notServed
    rw [isCall] at step
    obtain ⟨idle, isNext⟩ := Option.ite_none_right_eq_some.mp step
    cases isNext
    exact (hs.blocked_of_not_served has idle notServed).not_staysExhausted after
  · intro served
    have waits : (machine records).Always
        (fun _ s => Handshake records s ∧ (s.next = .putting → s.results.length < callsServed records)) events := by
      refine always_handshake wellFormed uncancelled served (fun putting => by cases putting) ?_
      intro before s e s' _ earlier allowed _ step
      exact served_step earlier allowed step
    intro before s isBefore reached
    obtain ⟨hs, has⟩ := known before s isBefore reached
    exact hs.staysExhausted has (waits before s isBefore reached).2

/-- After a record and the first nil there is room for one more call. -/
theorem staysExhausted_iff_further : ∃ s, (machine [plainView]).run (oneRecordRun ++ [.call]) = some s ∧
    s.results = [some plainView, none] ∧ s.next = .putting ∧ Returns [plainView] s := by
  have wellFormed : ∀ r ∈ [plainView], newRecord r = .ok r := by
    intro r isOnly
    rw [List.mem_singleton.mp isOnly]
    rfl
  have few : ∀ i < 11, ((machine [plainView]).run ((oneRecordRun ++ [Event.call]).take i)).all
      (fun s => decide (s.results.length < callsServed [plainView])) = true := by
    decide
  have served : (machine [plainView]).Throughout (fun _ s e => Served [plainView] s e) (oneRecordRun ++ [.call]) := by
    intro before e s s' isBefore reached _ _
    have shorter := isBefore.length_le
    rw [List.prefix_iff_eq_take.mp ((List.prefix_append before [e]).trans isBefore)] at reached
    have bound := few before.length (by simpa [oneRecordRun] using shorter)
    rw [reached] at bound
    exact of_decide_eq_true bound
  have stays := (staysExhausted_iff [plainView] wellFormed (oneRecordRun ++ [.call]) (by decide)).mpr served
  exact ⟨_, rfl, rfl, rfl, (stays _ _ List.prefix_rfl rfl).returns rfl (by decide)⟩

/-- A stream without records, up to its first nil. -/
def emptyStream : List Event :=
  [.call, .put, .shutdown, .receiveClosed]

/-- After its first nil, `Next` is called once more. -/
theorem second_nil_blocked : ¬ (machine []).Always (fun _ s => StaysExhausted [] s) (emptyStream ++ [.call]) := by
  intro stays
  have blocked : Blocked { State.newHandler [] with
      sync := true, closed := true, next := .putting, results := [none] } := ⟨rfl, rfl, rfl, rfl, rfl⟩
  exact blocked.not_staysExhausted (stays _ _ List.prefix_rfl rfl)

end Casm.Cluster.Handler
