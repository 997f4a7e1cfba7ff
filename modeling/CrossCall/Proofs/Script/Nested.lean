import CrossCall.Proofs.Callers.Charges
import CrossCall.Proofs.Script.Engaged
import CrossCall.Proofs.Script.Paths

/-! Delegates whose callables call the next delegate and answer its outcome. A call on the spot is
its callable: it waits for nobody, hands nothing in, and a panic goes through it. A call that is run
elsewhere ends the panic there, and what stands outside it sees a value. So of all calls in a chain
the innermost one that was run elsewhere turns the panic into an error; the calls inside it unwind,
and those outside it return. -/

namespace CrossCall.Script

open CrossCall.Script.Action

/-- The callable of the one delegate answers the outcome of a call through the other. -/
def PassesOn (d next : Delegate) : Prop := d.callable.target = .relay next

/-! ### Outcomes along a chain -/

/-- A value, as the answer of a call that has gone through `n` more calls. -/
def wrapped (v : Value) : Nat → Value
  | 0 => v
  | n + 1 => outcomeValue (.ok (wrapped v n))

/-- Each of `n` calls returns, the innermost one with the value and every other one with the outcome
of the next. -/
def returning (v : Value) : Nat → List (Except Payload (Except InvokeError Value))
  | 0 => []
  | n + 1 => .ok (.ok (wrapped v n)) :: returning v n

variable {r : Except Payload Value} {v : Value} {p : Payload} {ways : List Way}

theorem Way.gives_ok {way : Way} (h : way.isComplete) : way.gives (.ok v) = .ok (.ok v) := by
  cases way with
  | here | told => rfl
  | timedOut | refused e => cases h

theorem relayed_ok (h : ∀ way ∈ ways, way.isComplete) :
    relayed (.ok v) ways = .ok (wrapped v ways.length) := by
  induction ways with
  | nil => rfl
  | cons way ways ih =>
    rw [relayed, ih fun w hw => h w (.tail _ hw), Way.gives_ok (h way (.head _))]
    rfl

/-- If the innermost callable returns, every call returns the outcome of the next one. -/
theorem outcomes_ok (h : ∀ way ∈ ways, way.isComplete) :
    outcomes (.ok v) ways = returning v ways.length := by
  induction ways with
  | nil => rfl
  | cons way ways ih =>
    have hinside : ∀ w ∈ ways, w.isComplete := fun w hw => h w (.tail _ hw)
    rw [outcomes, relayed_ok hinside, Way.gives_ok (h way (.head _)), ih hinside]
    rfl

theorem relayed_append (r : Except Payload Value) (outside inside : List Way) :
    relayed r (outside ++ inside) = relayed (relayed r inside) outside := by
  induction outside with
  | nil => rfl
  | cons way outside ih => simp only [List.cons_append, relayed, ih]

theorem outcomes_append (r : Except Payload Value) (outside inside : List Way) :
    outcomes r (outside ++ inside) = outcomes (relayed r inside) outside ++ outcomes r inside := by
  induction outside with
  | nil => rfl
  | cons way outside ih => simp only [List.cons_append, outcomes, relayed_append, ih]

/-- A panic goes through all calls that are made on the spot. -/
theorem relayed_panic_here (n : Nat) :
    relayed (.error p) (List.replicate n .here) = .error p := by
  induction n with
  | zero => rfl
  | succ n ih =>
    rw [List.replicate_succ, relayed, ih]
    rfl

theorem outcomes_panic_here (n : Nat) :
    outcomes (.error p) (List.replicate n .here) = List.replicate n (.error p) := by
  induction n with
  | zero => rfl
  | succ n ih =>
    rw [List.replicate_succ, outcomes, relayed_panic_here, ih]
    rfl

/-- The innermost call that was run elsewhere ends the panic: the calls inside it unwind, it returns
the message as an error, and the calls outside it return. -/
theorem outcomes_panic_told {outside : List Way} (h : ∀ way ∈ outside, way.isComplete) (n : Nat) :
    outcomes (.error p) (outside ++ .told :: List.replicate n .here) =
      returning (outcomeValue (.error (.panicked p.message))) outside.length ++
        .ok (.error (.panicked p.message)) :: List.replicate n (.error p) := by
  have hinside : relayed (.error p) (.told :: List.replicate n .here) =
      .ok (outcomeValue (.error (.panicked p.message))) := by
    rw [relayed, relayed_panic_here]
    rfl
  rw [outcomes_append, hinside, outcomes_ok h, outcomes, relayed_panic_here, outcomes_panic_here]
  rfl

theorem eq_replicate_here (hways : ∀ way ∈ ways, way.isComplete) (h : .told ∉ ways) :
    ways = List.replicate ways.length .here := by
  refine List.eq_replicate_iff.mpr ⟨rfl, fun way hway => ?_⟩
  have hcomplete := hways way hway
  cases way with
  | here => rfl
  | told => exact absurd hway h
  | timedOut | refused e => cases hcomplete

/-- There is an innermost one among the calls that were run elsewhere. -/
theorem exists_innermost_told (hways : ∀ way ∈ ways, way.isComplete) (h : .told ∈ ways) :
    ∃ outside n, ways = outside ++ .told :: List.replicate n .here := by
  induction ways with
  | nil => cases h
  | cons way ways ih =>
    have hinside : ∀ w ∈ ways, w.isComplete := fun w hw => hways w (.tail _ hw)
    by_cases hmem : .told ∈ ways
    · obtain ⟨outside, n, rfl⟩ := ih hinside hmem
      exact ⟨way :: outside, n, rfl⟩
    · obtain rfl := (List.mem_cons.mp h).resolve_right hmem
      exact ⟨[], ways.length, congrArg (Way.told :: ·) (eq_replicate_here hinside hmem)⟩

/-! ### Chains that have been called -/

variable {owners : List ThreadId} {past : List (Deed World)} {args : List Value} {t : ThreadId}
  {C : Around World (Except InvokeError Value)} {inner : Target} {d : Delegate} {ds : List Delegate}

/-- By these deeds a callable has been run that passes the call on along the chain. Each call of the
chain was performed where the one before it ran its callable, and the callable at the inner end was
run with this outcome. -/
def PassedOn (owners : List ThreadId) (past : List (Deed World)) (args : List Value)
    (inner : Target) :
    List Delegate → ThreadId → Around World Value → List Way → Except Payload Value → Prop
  | [], t, C, ways, r => ways = [] ∧ (inner.run args).Performed past t C r
  | d :: ds, t, C, ways, r =>
    Went owners past args (PassedOn owners past args inner ds) d t C.relaying ways r

/-- A call has gone its way whatever more is told of its callable. -/
theorem exists_went {ran ran' : ThreadId → Around World Value → List Way →
      Except Payload Value → Prop} {res : Except Payload (Except InvokeError Value)}
    (h : Went owners past args ran d t C ways r) (hres : (outcomes r ways).head? = some res)
    (hran : ∀ u C ways r, ran u C ways r →
      ∃ ways' r', ran' u C ways' r' ∧ relayed r' ways' = relayed r ways) :
    ∃ ways' r', Went owners past args ran' d t C ways' r' ∧
      (outcomes r' ways').head? = some res := by
  cases h with
  | here hstays hr hp =>
    obtain ⟨ways', r', hr', hsame⟩ := hran _ _ _ _ hr
    refine ⟨_, r', .here hstays hr' (hsame ▸ hp), ?_⟩
    rw [← hres, outcomes, outcomes, hsame]
    rfl
  | told haway hq hmakes hruns hr hp =>
    obtain ⟨ways', r', hr', hsame⟩ := hran _ _ _ _ hr
    refine ⟨_, r', .told haway hq hmakes hruns hr' (hsame ▸ hp), ?_⟩
    rw [← hres, outcomes, outcomes, hsame]
    rfl
  | untold haway hway hp => exact ⟨_, _, .untold haway hway hp, hres⟩

/-- What the outermost call has come to is what its callable answers. -/
theorem relayed_of_head? {res : Except Payload (Except InvokeError Value)}
    (h : (outcomes r ways).head? = some res) : relayed r ways = res.map outcomeValue := by
  cases ways with
  | nil => cases h
  | cons way ways => exact congrArg (Except.map outcomeValue) (Option.some.inj h)

/-- Whatever a call of the first delegate came to, the calls of the chain have gone some ways. -/
theorem Comes.exists_passedOn {res : Except Payload (Except InvokeError Value)}
    (h : Comes owners past args d t C res) (hchain : (d :: ds).IsChain PassesOn) :
    ∃ ways r, Went owners past args
        (PassedOn owners past args (ds.getLastD d).callable.target ds) d t C ways r ∧
      (outcomes r ways).head? = some res := by
  obtain ⟨ways, r, hwent, hhead⟩ := h
  -- What the callable of `d` came to is what came of the call of the next one.
  induction ds generalizing d t C res ways r with
  | nil =>
    refine exists_went hwent hhead fun u C ways r hr => ⟨[], r, ⟨rfl, hr.2.performed⟩, ?_⟩
    exact hr.1 ▸ rfl
  | cons next ds ih =>
    obtain ⟨hpasses, hchain⟩ := List.isChain_cons_cons.mp hchain
    rw [List.getLastD_cons]
    refine exists_went hwent hhead fun u C ways r hr => ?_
    obtain ⟨rfl, hcame⟩ := hr
    rw [hpasses] at hcame
    obtain ⟨-, res', ⟨ways', r', hwent', hhead'⟩, rfl⟩ := Target.came_relay.mp hcame
    obtain ⟨ways'', r'', hwent'', hhead''⟩ := ih hchain ways' r' hwent' hhead'
    exact ⟨ways'', r'', hwent'', relayed_of_head? hhead''⟩

/-- A call whose callable was run has an inside. -/
theorem Went.exists_inside
    {ran : ThreadId → Around World Value → List Way → Except Payload Value → Prop}
    (h : Went owners past args ran d t C ways r) (hways : ∀ way ∈ ways, way.isComplete) :
    ∃ way inside u C', ways = way :: inside ∧ ran u C' inside r := by
  cases h with
  | here _ hr _ | told _ _ _ _ hr _ => exact ⟨_, _, _, _, rfl, hr⟩
  | untold _ hway _ => exact absurd (hways _ (.head _)) hway

/-- If every callable was run, so was the one at the inner end. -/
theorem Went.all_run {inner : Target}
    (h : Went owners past args (PassedOn owners past args inner ds) d t C ways r)
    (hways : ∀ way ∈ ways, way.isComplete) :
    ways.length = ds.length + 1 ∧ ∃ u C, (inner.run args).Performed past u C r := by
  induction ds generalizing d t C ways with
  | nil =>
    obtain ⟨way, inside, u, C', rfl, rfl, hp⟩ := h.exists_inside hways
    exact ⟨rfl, u, C', hp⟩
  | cons next ds ih =>
    obtain ⟨way, inside, u, C', rfl, hinside⟩ := h.exists_inside hways
    obtain ⟨hlength, hp⟩ := ih hinside fun w hw => hways w (.tail _ hw)
    exact ⟨congrArg Nat.succ hlength, hp⟩

/-- Every call of the chain was performed, and came to what it came to. -/
theorem Went.performed_layer {inner : Target} {k : Nat} {d' : Delegate}
    {o : Except Payload (Except InvokeError Value)}
    (h : Went owners past args (PassedOn owners past args inner ds) d t C ways r)
    (hd : (d :: ds)[k]? = some d') (ho : (outcomes r ways)[k]? = some o) :
    ∃ u C', (tryInvoke d' args).Performed past u C' o := by
  induction k generalizing d ds t C ways with
  | zero =>
    obtain rfl := Option.some.inj hd
    cases h with
    | here _ _ hp | told _ _ _ _ _ hp | untold _ _ hp => exact ⟨t, C, Option.some.inj ho ▸ hp⟩
  | succ k ih =>
    cases ds with
    | nil => cases hd
    | cons next ds =>
      cases h with
      | here _ hr _ | told _ _ _ _ hr _ => exact ih hr hd ho
      | untold _ _ _ => cases ho

/-! ### Calls on the spot -/

/-- Whatever the state is, as long as the workers have the threads `owners`, thread `t` comes from
`p` to `q` by steps that report these events and otherwise change nothing. None of them waits. -/
inductive Slips {α : Type} (owners : List ThreadId) (t : ThreadId) :
    Action α → List Event → Action α → Prop where
  | refl (p : Action α) : Slips owners t p [] p
  | look {p q q' : Action α} {events : List Event} :
      (∀ (m : Moment) w, m.self = t → w.workers.map Worker.thread = owners →
        p.step m w = .going w q) →
      Slips owners t q events q' → Slips owners t p events q'
  | tell {p q q' : Action α} {events : List Event} (e : Event) :
      (∀ (m : Moment) w, m.self = t → w.workers.map Worker.thread = owners →
        p.step m w = .going (w.report e) q) →
      Slips owners t q events q' → Slips owners t p (e :: events) q'

namespace Slips

variable {α β : Type} {p q q' : Action α} {events events' : List Event}

theorem trans (h : Slips owners t p events q) (h' : Slips owners t q events' q') :
    Slips owners t p (events ++ events') q' := by
  induction h with
  | refl p => exact h'
  | look hs _ ih => exact .look hs (ih h')
  | tell e hs _ ih => exact .tell e hs (ih h')

theorem around {C : Action α → Action β} (h : Slips owners t p events q)
    (hC : Program.IsAround C) : Slips owners t (C p) events (C q) := by
  induction h with
  | refl p => exact .refl _
  | look hs _ ih => exact .look (fun m w hm hw => Program.step_around hC (hs m w hm hw)) ih
  | tell e hs _ ih => exact .tell e (fun m w hm hw => Program.step_around hC (hs m w hm hw)) ih

end Slips

/-- What a call on the spot reports. -/
def reportsHere (queue : Option Queue) : List Event :=
  queue.toList.map fun q => .invokedInline q.name

/-- A call on the spot looks whose thread it is made on, reports that, and is its callable. -/
theorem slips_invokeWith {queue : Option Queue} (bound : WaitBound) (callable : Callable)
    (args : List Value) (body : Action Value) (h : staysHere owners t queue) :
    Slips owners t (invokeWith queue bound callable args body) (reportsHere queue)
      (body.mapResult (·.map .ok)) := by
  rw [← Program.bind_pure_eq_mapResult]
  cases queue with
  | none => exact .refl _
  | some q =>
    have htell : Slips owners t ((report (.invokedInline q.name)).bind fun _ => body.bind fun v =>
        .pure (Except.ok (ε := InvokeError) v)) (reportsHere (some q))
        (body.bind fun v => .pure (.ok v)) :=
      .tell _ (fun _ _ _ _ => rfl) (.refl _)
    obtain ⟨number, name, kind⟩ := q
    cases kind with
    | current => exact htell
    | worker v =>
      refine .look (fun m w hm hw => ?_) htell
      have hhere : (w.workers[v]?.any fun x => x.thread = m.self) = true := by
        have howner : (w.workers.map Worker.thread)[v]? = some t := hw ▸ of_decide_eq_true h
        rw [List.getElem?_map] at howner
        obtain ⟨x, hx, hthread⟩ := Option.map_eq_some_iff.mp howner
        rw [hx, Option.any_some, hthread, hm]
        exact decide_eq_true rfl
      show Program.Outcome.going w
        (if w.workers[v]?.any fun x => x.thread = m.self then _ else _) = _
      rw [hhere]
      rfl
    | _ => cases h

theorem relay_run (d : Delegate) (args : List Value) :
    (Target.relay d).run args = (tryInvoke d args).mapResult (·.map outcomeValue) :=
  Program.bind_pure_eq_mapResult outcomeValue (tryInvoke d args)

/-- A chain of calls on the spot is the innermost callable, whatever the bounds. -/
theorem slips_chain (hchain : (d :: ds).IsChain PassesOn)
    (hhere : ∀ d' ∈ d :: ds, staysHere owners t d'.queue) (args : List Value) :
    Slips owners t (tryInvoke d args) ((d :: ds).flatMap fun d => reportsHere d.queue)
      (((ds.getLastD d).callable.target.run args).mapResult
        (·.map fun v => .ok (wrapped v ds.length))) := by
  induction ds generalizing d with
  | nil =>
    have hslips := slips_invokeWith d.bound d.callable args (d.callable.target.run args)
      (hhere d (.head _))
    rw [List.flatMap_cons, List.flatMap_nil, List.append_nil]
    exact hslips
  | cons next ds ih =>
    obtain ⟨hpasses, hchain⟩ := List.isChain_cons_cons.mp hchain
    have hcall : tryInvoke d args = invokeWith d.queue d.bound d.callable args
        ((tryInvoke next args).mapResult (·.map outcomeValue)) := by
      rw [← relay_run, ← hpasses]
      rfl
    have hslips := slips_invokeWith d.bound d.callable args
      ((tryInvoke next args).mapResult (·.map outcomeValue)) (hhere d (.head _))
    rw [Program.mapResult_mapResult, ← hcall] at hslips
    have hrest := (ih hchain fun d' hd' => hhere d' (.tail _ hd')).around
      (Program.isAround_mapResult fun r => (r.map outcomeValue).map (Except.ok (ε := InvokeError)))
    rw [Program.mapResult_mapResult] at hrest
    rw [List.getLastD_cons, List.flatMap_cons]
    have hsame : (fun r : Except Payload Value =>
        ((r.map fun v => Except.ok (ε := InvokeError) (wrapped v ds.length)).map
          outcomeValue).map (Except.ok (ε := InvokeError))) =
        (·.map fun v => .ok (wrapped v (ds.length + 1))) := by
      funext r
      cases r <;> rfl
    have hall := hslips.trans hrest
    rw [hsame] at hall
    exact hall

/-! ### Panics -/

/-- Whenever the first delegate of a chain has been called, by whatever thread and however the
threads have taken turns, each call of the chain that was made has gone some way: on the spot if its
queue is that of the thread that made it, and through the queue else. Say all callables were run and
their callers told. If the innermost callable returned, every call returned the outcome of the next
one. If it unwound and each call was made on the spot, the panic went through all of them. Else the
innermost one of the calls that were run elsewhere returned its message as an error, the calls
inside that one unwound with the same panic, and those outside it returned. As long as the workers
keep their threads, which they do, a chain of calls on the spot is nothing but the innermost
callable: what comes before it only reports events, changes nothing else and waits for nobody,
whatever the bounds and however many calls there are. And a call that was let in elsewhere and run,
and is not given up, comes back with what its callable came to. -/
theorem panics_stop_at_the_innermost_dispatch {machine : Machine World} (h : Begins owners machine)
    (hchain : (d :: ds).IsChain PassesOn) (args : List Value) :
    (∀ c : Chronicle World, Reachable Chronicle.move (· = ⟨machine, []⟩) c →
      c.machine.shared.workers.map Worker.thread = owners ∧
      ∀ t C res, (tryInvoke d args).Performed c.past t C res →
        ∃ ways r, Went owners c.past args
            (PassedOn owners c.past args (ds.getLastD d).callable.target ds) d t C ways r ∧
          (outcomes r ways).head? = some res ∧
          (∀ (k : Nat) d' o, (d :: ds)[k]? = some d' → (outcomes r ways)[k]? = some o →
            ∃ u C', (tryInvoke d' args).Performed c.past u C' o) ∧
          ((∀ way ∈ ways, way.isComplete) → ways.length = (d :: ds).length ∧
            (∃ u C', ((ds.getLastD d).callable.target.run args).Performed c.past u C' r) ∧
            (∀ v, r = .ok v → outcomes r ways = returning v (d :: ds).length) ∧
            ∀ p, r = .error p →
              (.told ∉ ways → outcomes r ways = List.replicate (d :: ds).length (.error p)) ∧
              (.told ∈ ways → ∃ outside n, ways = outside ++ .told :: List.replicate n .here ∧
                outcomes r ways =
                  returning (outcomeValue (.error (.panicked p.message))) outside.length ++
                    .ok (.error (.panicked p.message)) :: List.replicate n (.error p)))) ∧
    (∀ t, (∀ d' ∈ d :: ds, staysHere owners t d'.queue) →
      Slips owners t (tryInvoke d args) ((d :: ds).flatMap fun d => reportsHere d.queue)
        (((ds.getLastD d).callable.target.run args).mapResult
          (·.map fun v => .ok (wrapped v ds.length)))) ∧
    ∀ (s : Call.Scene (List Value) Value) (i k : Nat) (p : Call.Party (List Value) Value)
      (a : Call.Attempt (List Value) Value) (r : Except Payload Value), s.Reachable →
      s.parties[i]? = some p → p.caller.wasLetIn → (∀ stand ∈ s.stands i, stand.isOver) →
      s.attempts[k]? = some a → a.envelope.call = i → a.stand = .over (some r) →
      ¬ s.HasGivenUp i →
      ∃ n t q, afterMoves Call.Scene.move s (List.replicate n (.stepCaller i false)) = some t ∧
        t.parties[i]? = some q ∧ q.caller = .returned (throughQueue r) := by
  refine ⟨fun c hr => ⟨h.threads_of_reachable hr, fun t C res hp => ?_⟩,
    fun t hhere => slips_chain hchain hhere args, ?_⟩
  · obtain ⟨ways, r, hwent, hhead⟩ := (h.comes_of_performed hr hp).exists_passedOn hchain
    refine ⟨ways, r, hwent, hhead, fun k d' o => hwent.performed_layer, fun hways => ?_⟩
    obtain ⟨hlength, hinner⟩ : ways.length = (d :: ds).length ∧ _ := hwent.all_run hways
    refine ⟨hlength, hinner, ?_, ?_⟩
    · rintro v rfl
      exact hlength ▸ outcomes_ok hways
    · rintro p rfl
      refine ⟨fun hnone => ?_, fun htold => ?_⟩
      · rw [← hlength, ← outcomes_panic_here, ← eq_replicate_here hways hnone]
      · obtain ⟨outside, n, rfl⟩ := exists_innermost_told hways htold
        refine ⟨outside, n, rfl, outcomes_panic_told (fun way hway => hways way ?_) n⟩
        exact List.mem_append_left _ hway
  · intro s i k p a r hs hp hin hover ha hi hstand hnot
    obtain ⟨n, t, q, outcome, ht, hq, hc, hreports⟩ :=
      hs.comesBack_answered hp hin hover ha hi hstand hnot
    refine ⟨n, t, q, ht, hq, ?_⟩
    cases hreports with
    | value v => exact hc
    | panic p => exact hc

def boom : Callable := { target := .named .boom0, arity := 0, identity := .free (.function .boom0) }

/-- On the worker's own thread this call is run at once; elsewhere it could not wait. -/
def boomAtClerk : Delegate := ⟨boom, some ⟨0, "clerk", .worker 0⟩, .within .zero, none⟩

/-- The worker runs a callable that calls the worker again. -/
def boomBehindClerk : Delegate :=
  ⟨⟨.relay boomAtClerk, 0, .closure 2⟩, some ⟨0, "clerk", .worker 0⟩, .infinite, none⟩

def boomBehindAll : Delegate := ⟨⟨.relay boomBehindClerk, 0, .closure 3⟩, none, .infinite, none⟩

theorem begins_branch (d : Delegate) (args : List Value) :
    Begins [1] (branch d args (some (firstTurn 0))) where
  calls := rfl
  threads := rfl
  waiting x hx := List.mem_singleton.mp hx ▸ rfl
  shelved items hi := by cases hi
  engaged t thread ht := by
    match t with
    | 0 =>
      obtain rfl := Option.some.inj ht
      exact .customer _ (.call d args _ fun _ => .done false)
    | 1 =>
      obtain rfl := Option.some.inj ht
      exact .starting 0 rfl
    | n + 2 => cases ht

/-- The turns in which the call is made and run, and comes back. -/
def callAndRun : List Machine.Move :=
  List.replicate 13 (.step 0 false 0) ++ List.replicate 17 (.step 1 false 0) ++
    List.replicate 3 (.step 0 false 0) ++ [.step 1 false 0] ++ List.replicate 3 (.step 0 false 0)

theorem exists_boomBehindAll :
    ∃ (c : Chronicle World) (C : Around World (Except InvokeError Value)),
    Reachable Chronicle.move (· = ⟨branch boomBehindAll [] (some (firstTurn 0)), []⟩) c ∧
      (tryInvoke boomBehindAll []).Performed c.past 0 C
        (.ok (.ok (outcomeValue (.error (.panicked "boom"))))) := by
  obtain ⟨w, hw, hend⟩ : ∃ w, afterMoves (Machine.Watch.move 0)
      ⟨branch boomBehindAll [] (some (firstTurn 0)), tryInvoke boomBehindAll []⟩ callAndRun =
        some w ∧ w.rest.Ended (.ok (.ok (outcomeValue (.error (.panicked "boom"))))) :=
    ⟨_, rfl, rfl⟩
  have hruns : (branch boomBehindAll [] (some (firstTurn 0))).Runs 0
      ((tryInvoke boomBehindAll []).attempt.bind fun _ => .pure false) := ⟨.pure false, rfl⟩
  obtain ⟨past, hr, halong⟩ := Chronicle.exists_along hruns (.of_afterMoves hw)
  exact ⟨_, _, hr, _, [], past, [], (List.append_nil past).symm, halong, hend⟩

/-- A failure shows its kind. -/
theorem field_failureValue (kind message : String) (source : Option String) :
    (failureValue kind message source).field? "error" = some (.text kind) := by
  have hmessage : ¬ "message" < "error" ∧ "message" ≠ "error" := by decide
  have hsource : ¬ "source" < "error" ∧ "source" ≠ "error" := by decide
  simp only [failureValue, Value.ofFields, Value.field?, List.foldl_cons, List.foldl_nil,
    Value.insertField, if_neg hmessage.1, if_neg hmessage.2, if_neg hsource.1, if_neg hsource.2,
    List.lookup_cons_self]

theorem failureValue_kind {kind kind' message message' : String} {source source' : Option String}
    (h : failureValue kind message source = failureValue kind' message' source') :
    kind = kind' := by
  have hsame := congrArg (Value.field? "error") h
  rw [field_failureValue, field_failureValue] at hsame
  exact Value.text.inj (Option.some.inj hsame)

theorem panics_stop_at_the_innermost_dispatch_behind_all :
    ∃ (c : Chronicle World) (p : Payload) (C C' : Around World (Except InvokeError Value)),
      Begins [1] (branch boomBehindAll [] (some (firstTurn 0))) ∧
      [boomBehindAll, boomBehindClerk, boomAtClerk].IsChain PassesOn ∧
      Reachable Chronicle.move (· = ⟨branch boomBehindAll [] (some (firstTurn 0)), []⟩) c ∧
      (tryInvoke boomBehindClerk []).Performed c.past 0 C (.ok (.error (.panicked p.message))) ∧
      (tryInvoke boomAtClerk []).Performed c.past 1 C' (.error p) := by
  obtain ⟨c, C, hr, hp⟩ := exists_boomBehindAll
  have hchain : [boomBehindAll, boomBehindClerk, boomAtClerk].IsChain PassesOn :=
    List.isChain_cons_cons.mpr ⟨rfl, List.isChain_cons_cons.mpr ⟨rfl, .singleton _⟩⟩
  obtain ⟨ways, r, hwent, hhead, -⟩ := ((panics_stop_at_the_innermost_dispatch
    (begins_branch boomBehindAll []) hchain []).1 c hr).2 0 C _ hp
  cases hwent with
  | told haway | untold haway => exact absurd rfl haway
  | here _ hinside _ =>
  cases hinside with
  | here hstays => exact absurd hstays (by decide)
  | @untold way _ _ hway _ =>
    cases way with
    | here | told => exact absurd rfl hway
    | timedOut =>
      have hvalue := Except.ok.inj (Except.ok.inj (Option.some.inj hhead))
      exact absurd (failureValue_kind hvalue) (by decide)
    | refused e =>
      have hvalue := Except.ok.inj (Except.ok.inj (Option.some.inj hhead))
      have hkind : refusalKind e = "Panicked" := failureValue_kind hvalue
      cases e with
      | closed => exact absurd (show "Closed" = "Panicked" from hkind) (by decide)
      | spawn name source => exact absurd (show "Spawn" = "Panicked" from hkind) (by decide)
  | told _ hq _ hruns hinside hp =>
    obtain rfl := Option.some.inj hq
    obtain rfl := Option.some.inj hruns
    cases hinside with
    | told haway | untold haway => exact absurd rfl haway
    | here _ hinside hp' =>
      obtain ⟨rfl, -⟩ := hinside
      cases r with
      | ok v =>
        have hvalue := Except.ok.inj (Except.ok.inj (Option.some.inj hhead))
        cases congrArg (Option.isSome <| Value.field? "ok" ·) hvalue
      | error p => exact ⟨c, p, _, _, begins_branch _ _, hchain, hr, hp, hp'⟩

end CrossCall.Script
