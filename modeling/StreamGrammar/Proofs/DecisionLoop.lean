import StreamGrammar.Proofs.Chunking

/-!
# The decision loop ends

When a symbol has arrived, the engine takes one decision after the other. A path that
is taken may enter and leave any number of rules, so that nothing about its length
bounds the loop. What does is how a path ends. An alternative ends by consuming a
symbol that waits. The exit of a node leaves every rule that it enters, and then the
rule that the node belongs to. So each round of the loop consumes a symbol or, if it
leaves the symbols alone, ends exactly one rule.
-/

namespace StreamGrammar

/-- Every rule that the path calls it leaves again, and it leaves no other. -/
inductive Path.Balanced : Path → Prop
  | nil : Balanced []
  | goto (node : NodeId) {rest : Path} (balanced : Balanced rest) : Balanced (.goto node :: rest)
  | call (rule : RuleId) (resume : NodeId) {inner rest : Path} (nested : Balanced inner)
      (balanced : Balanced rest) : Balanced (.call rule resume :: inner ++ .leave :: rest)

namespace Walk

variable {graph : Graph}

/-- A walk that ends a rule stays in it up to the last step, which leaves it. -/
theorem exists_leave {top : Frame} {steps : Path} (walk : Walk graph [top] steps []) :
    ∃ nested last, steps = nested ++ [.leave] ∧ Walk graph [top] nested [last] ∧
      graph.outgoing last = [] := by
  rcases List.eq_nil_or_concat' steps with rfl | ⟨nested, step, rfl⟩
  · cases nil_iff.mp walk
  rcases append_iff.mp walk with ⟨middle, inside, ends⟩
  rcases cons_iff.mp ends with ⟨enabled, stays⟩
  have empties := nil_iff.mp stays
  rcases List.exists_cons_of_ne_nil (Step.stack_ne_nil_of_isEnabled enabled) with
    ⟨innermost, below, rfl⟩
  cases step with
  | call | goto | consume => cases empties
  | leave =>
      obtain rfl : below = [] := empties.symm
      exact ⟨nested, innermost, rfl, inside, enabled⟩

/-- A silent walk within a rule leaves whatever it calls. -/
theorem balanced {top last : Frame} {steps : Path} (walk : Walk graph [top] steps [last])
    (silent : Path.matchers steps = []) : Path.Balanced steps ∧ last.rule = top.rule := by
  cases steps with
  | nil =>
      cases nil_iff.mp walk
      exact ⟨.nil, rfl⟩
  | cons step rest =>
      have goesOn := (cons_iff.mp walk).2
      cases step with
      | consume matcher target => cases silent
      | leave => cases goesOn.eq_nil_of_empty.2
      | goto node =>
          have inRule : Walk graph [{ top with node }] rest [last] := goesOn
          rcases balanced inRule silent with ⟨restBalanced, rule_eq⟩
          exact ⟨.goto node restBalanced, rule_eq⟩
      | call rule resume =>
          have called : Walk graph ([⟨rule, Rule.entry⟩] ++ [{ top with node := resume }]) rest
              [last] := goesOn
          rcases called.keeps_or_empties with
            ⟨kept, final_eq, kept_ne, _⟩ | ⟨first, second, rfl, empties, resumes⟩
          · -- One rule is being run in the end, so the called one has been left.
            have length_eq := congrArg List.length final_eq
            have kept_pos := List.length_pos_iff.mpr kept_ne
            simp only [List.length_append, List.length_singleton] at length_eq
            omega
          · rw [Path.matchers_call, Path.matchers_append, List.append_eq_nil_iff] at silent
            rcases empties.exists_leave with ⟨inner, innermost, rfl, inside, _⟩
            have innerSilent : Path.matchers inner = [] := by simpa using silent.1
            have nested := (balanced inside innerSilent).1
            rcases balanced resumes silent.2 with ⟨restBalanced, rule_eq⟩
            refine ⟨?_, rule_eq⟩
            rw [List.append_assoc, List.singleton_append]
            exact .call rule resume nested restBalanced
termination_by steps.length
decreasing_by
  all_goals
    subst_vars
    simp only [List.length_cons, List.length_append]
    omega

end Walk

namespace Engine

variable {grammar : Grammar} {consumer : Consumer} {limits : ResolutionLimits}
  {engine next : Engine}

/-- What a round of the decision loop does unless it ends the loop. -/
inductive Iterates (grammar : Grammar) (consumer : Consumer) (engine next : Engine) : Prop
  /-- An alternative of the innermost rule's node is taken, which consumes one symbol. -/
  | commits {top : Frame} {below : List Frame} {routes : Routes} {path : Path} {character : Char}
      (stack_eq : engine.stack = top :: below) (routes_eq : grammar.routes? top = some routes)
      (path_mem : path ∈ routes.paths) (next_eq : next = engine.takePath grammar consumer path)
      (symbols_eq : engine.lookahead.symbols = .char character :: next.lookahead.symbols) :
      Iterates grammar consumer engine next
  /-- The innermost rule ends at a node without edges. -/
  | ends {top : Frame} (stack_eq : engine.stack = top :: next.stack)
      (edgeless : grammar.outgoing top = []) (next_eq : next = engine.leave grammar consumer)
      (lookahead_eq : next.lookahead = engine.lookahead) : Iterates grammar consumer engine next
  /-- The exit is taken, which stays in the innermost rule until its last step leaves it. -/
  | leaves {top last : Frame} {routes : Routes} {nested : Path}
      (stack_eq : engine.stack = top :: next.stack) (routes_eq : grammar.routes? top = some routes)
      (exit_eq : routes.exit = some (nested ++ [.leave])) (balanced : nested.Balanced)
      (inside : Walk grammar.toGraph [top] nested [last]) (rule_eq : last.rule = top.rule)
      (next_eq : next = engine.takePath grammar consumer (nested ++ [.leave]))
      (lookahead_eq : next.lookahead = engine.lookahead) : Iterates grammar consumer engine next

theorem eq_of_progress_eq_ongoing (goesOn : engine.progress = .ongoing next) :
    next = engine ∧ engine.status.isRunning = true := by
  simp only [progress] at goesOn
  split at goesOn
  next running =>
    cases goesOn
    exact ⟨rfl, running⟩
  next => cases goesOn

theorem Proceeds.iterates {path : Path} {read : List Char} {final : List Frame}
    (proceeds : engine.Proceeds grammar path read final)
    (took : engine.Took grammar.toGraph path read (engine.takePath grammar consumer path))
    (running : engine.status = .running) :
    engine.Iterates grammar consumer (engine.takePath grammar consumer path) := by
  have stack_eq : (engine.takePath grammar consumer path).stack = final :=
    took.run.final_eq.trans proceeds.run.final_eq.symm
  have symbols_eq := took.lookahead
  cases proceeds with
  | ends top_eq edgeless =>
      refine .ends ?_ edgeless (leave_eq_takePath running).symm ?_
      · rw [stack_eq, top_eq]
      · exact congrArg Lookahead.mk symbols_eq.symm
  | leaves top_eq routes_eq _ exit_eq walk silent =>
      rcases walk.exists_leave with ⟨nested, last, rfl, inside, _⟩
      have nestedSilent : Path.matchers nested = [] := by simpa using silent
      rcases inside.balanced nestedSilent with ⟨balanced, rule_eq⟩
      refine .leaves ?_ routes_eq exit_eq balanced inside rule_eq rfl ?_
      · rw [stack_eq, top_eq]
      · exact congrArg Lookahead.mk symbols_eq.symm
  | consumes top_eq routes_eq _ path_mem => exact .commits top_eq routes_eq path_mem rfl symbols_eq

theorem iterates_of_advance (resolved : grammar.IsResolved limits)
    (running : engine.status = .running) {text : List Char} {ended : Bool}
    (waiting : engine.lookahead = .holding text ended)
    (advance_eq : engine.advance grammar consumer = .ongoing next) :
    engine.Iterates grammar consumer next := by
  have decides : Decides grammar consumer engine (engine.advance grammar consumer) :=
    advance_decides resolved running waiting
  generalize engine.advance grammar consumer = after at decides advance_eq
  cases decides with
  | idles | finishes | putsOff | rejects => cases advance_eq
  | proceeds _ proceeds =>
      rcases eq_of_progress_eq_ongoing advance_eq with ⟨rfl, stillRunning⟩
      rcases takePath_spec consumer running proceeds.run proceeds.waits with
        took | ⟨_, _, _, _, _, _, _, broke⟩
      · exact proceeds.iterates took running
      · rw [broke.ended] at stillRunning
        cases stillRunning

/-- The engine after some rounds of the decision loop, none of which has ended the loop. -/
inductive InLoop (grammar : Grammar) (consumer : Consumer) (begun : Engine) : Nat → Engine → Prop
  | begins : InLoop grammar consumer begun 0 begun
  | goesOn {count : Nat} {current next : Engine}
      (before : InLoop grammar consumer begun count current)
      (advance_eq : current.advance grammar consumer = .ongoing next) :
      InLoop grammar consumer begun (count + 1) next

namespace InLoop

variable {begun current other last : Engine} {count round : Nat}

theorem unique (inLoop : InLoop grammar consumer begun round current)
    (otherInLoop : InLoop grammar consumer begun round other) : current = other := by
  induction inLoop generalizing other with
  | begins =>
      cases otherInLoop
      rfl
  | goesOn _ advance_eq ih =>
      cases otherInLoop with
      | goesOn otherBefore other_eq =>
          rw [ih otherBefore, other_eq] at advance_eq
          exact (Progress.ongoing.inj advance_eq).symm

/-- Every earlier round has led to another one. -/
theorem exists_earlier (inLoop : InLoop grammar consumer begun round current)
    (earlier : count < round) : ∃ between next, InLoop grammar consumer begun count between ∧
      between.advance grammar consumer = .ongoing next := by
  induction inLoop with
  | begins => cases earlier
  | goesOn before advance_eq ih =>
      rcases Nat.lt_succ_iff_lt_or_eq.mp earlier with further | rfl
      · exact ih further
      · exact ⟨_, _, before, advance_eq⟩

theorem le_of_settled (inLoop : InLoop grammar consumer begun round current)
    (lastInLoop : InLoop grammar consumer begun count last) {after : Engine}
    (settled : last.advance grammar consumer = .settled after) : round ≤ count := by
  by_contra later
  rcases inLoop.exists_earlier (Nat.lt_of_not_le later) with ⟨between, next, there, advance_eq⟩
  rw [there.unique lastInLoop, settled] at advance_eq
  cases advance_eq

end InLoop

/-- A decision can be taken: the parse has begun and goes on, and what waits is some text and
perhaps the end of the input. -/
structure Awaits (engine : Engine) (ended : Bool) : Prop where
  running : engine.status = .running
  entered : engine.entered = true
  waits : ∃ text, engine.lookahead = .holding text ended

theorem Awaits.advance {ended : Bool} (awaits : engine.Awaits ended)
    (resolved : grammar.IsResolved limits)
    (advance_eq : engine.advance grammar consumer = .ongoing next) :
    next.Awaits ended ∧ next.IsCloser engine := by
  rcases awaits with ⟨running, entered, text, waiting⟩
  have outcome : Outcome grammar.toGraph consumer engine (engine.advance grammar consumer) :=
    advance_outcome resolved running waiting
  rw [advance_eq] at outcome
  cases outcome with
  | moves took closer =>
      have symbols_eq := took.lookahead
      rw [waiting] at symbols_eq
      rcases Lookahead.exists_holding_of_symbols symbols_eq with ⟨rest, _, rest_eq⟩
      exact ⟨⟨took.performed.running, took.entered.trans entered, rest, rest_eq⟩, closer⟩

theorem Awaits.inLoop {begun current : Engine} {ended : Bool} (awaits : begun.Awaits ended)
    (resolved : grammar.IsResolved limits) {round : Nat}
    (inLoop : InLoop grammar consumer begun round current) : current.Awaits ended := by
  induction inLoop with
  | begins => exact awaits
  | goesOn _ advance_eq ih => exact (ih.advance resolved advance_eq).1

/-- The loop ends with what the engine settles to. -/
theorem Awaits.exists_last {begun : Engine} {ended : Bool} (awaits : begun.Awaits ended)
    (resolved : grammar.IsResolved limits) (consumer : Consumer) :
    ∃ count last, InLoop grammar consumer begun count last ∧
      last.advance grammar consumer = .settled (begun.settle grammar consumer) := by
  let Holds (current : Engine) : Prop :=
    current.Awaits ended ∧ ∃ count, InLoop grammar consumer begun count current
  have goesOn : ∀ before next : Engine, Holds before →
      before.advance grammar consumer = .ongoing next → Holds next ∧ next.IsCloser before := by
    rintro before next ⟨beforeAwaits, count, inLoop⟩ advance_eq
    rcases beforeAwaits.advance resolved advance_eq with ⟨nextAwaits, closer⟩
    exact ⟨⟨nextAwaits, count + 1, inLoop.goesOn advance_eq⟩, closer⟩
  have holds : Holds begun := ⟨awaits, 0, .begins⟩
  rcases exists_settled holds goesOn with ⟨last, ⟨_, count, inLoop⟩, settled⟩
  exact ⟨count, last, inLoop, settled⟩

theorem isRunning_of_perform {action : Action}
    (running : (engine.perform consumer action).status.isRunning = true) :
    engine.status.isRunning = true := by
  cases action with
  | none | beginCapture | event => exact running
  | publish name trimStart trimEnd =>
      simp only [perform] at running
      split at running
      next => exact running
      next => cases running

theorem isRunning_of_enter {node : Frame}
    (running : (engine.enter grammar consumer node).status.isRunning = true) :
    engine.status.isRunning = true := by
  have noted : (engine.note consumer (.nodeEntered node)).status.isRunning = true :=
    isRunning_of_perform running
  exact noted

theorem isRunning_of_enterStart
    (running : (engine.enterStart grammar consumer).status.isRunning = true) :
    engine.status.isRunning = true := by
  simp only [enterStart] at running
  split at running
  next => exact running
  next =>
    split at running
    next => exact running
    next =>
      have begun := isRunning_of_enter running
      exact begun

theorem enterStart_keeps (grammar : Grammar) (consumer : Consumer)
    (running : engine.status = .running) :
    (engine.enterStart grammar consumer).lookahead = engine.lookahead ∧
      (engine.enterStart grammar consumer).entered = true := by
  simp only [enterStart]
  split
  next entered => exact ⟨rfl, entered⟩
  next =>
    split
    next => exact ⟨rfl, rfl⟩
    next top _ _ =>
      have begun : ({ engine with entered := true } : Engine).status = .running := running
      have kept := (enter_spec grammar consumer begun top).1
      exact ⟨kept.lookahead, kept.entered⟩

/-- The engine with more symbols behind those that wait. -/
def withMore (engine : Engine) (more : List Symbol) : Engine :=
  { engine with lookahead := ⟨engine.lookahead.symbols ++ more⟩ }

/-- The engine when symbols have arrived, before any decision is taken. -/
def arrive (grammar : Grammar) (consumer : Consumer) (engine : Engine) (symbols : List Symbol) :
    Engine :=
  (engine.withMore symbols).enterStart grammar consumer

theorem running_of_arrive {symbols : List Symbol}
    (begins : (engine.arrive grammar consumer symbols).status.isRunning = true) :
    engine.status = .running := by
  have running : (engine.withMore symbols).status.isRunning = true :=
    isRunning_of_enterStart begins
  exact status_of_isRunning running

/-- When a symbol has arrived, a decision can be taken, unless the parse has ended. -/
theorem awaits_arrive {text : List Char} (waiting : engine.lookahead = .holding text false)
    (symbol : Symbol)
    (begins : (engine.arrive grammar consumer [symbol]).status.isRunning = true) :
    (engine.arrive grammar consumer [symbol]).Awaits (symbol == .endOfInput) := by
  have running : engine.status = .running := running_of_arrive begins
  have pushedRunning : (engine.withMore [symbol]).status = .running := running
  rcases enterStart_keeps grammar consumer pushedRunning with ⟨lookahead_eq, entered⟩
  have pushed_eq : (engine.withMore [symbol]).lookahead =
      .holding (text ++ addedText symbol) (symbol == .endOfInput) := by
    rw [← push_holding, ← waiting]
    rfl
  exact ⟨status_of_isRunning begins, entered, _, lookahead_eq.trans pushed_eq⟩

theorem Reachable.exists_holding (reachable : engine.Reachable grammar)
    (resolved : grammar.IsResolved limits) (running : engine.status = .running) :
    ∃ text, engine.lookahead = .holding text false := by
  rcases reachable.tracks resolved with ⟨start, told, fed, tracks⟩
  rcases tracks.follows_of_running running with ⟨steps, read, follows⟩
  rcases follows.waits with ⟨waiting, lookahead_eq, _⟩
  exact ⟨waiting, lookahead_eq⟩

end Engine

/-- Whatever symbol arrives at an engine, and however it has been used before, the loop of decisions
ends with what feeding the symbol leads to. Each of its rounds either is the last one, or consumes
one symbol that waits, or leaves the symbols alone and ends exactly one rule. -/
theorem Grammar.decision_loop_ends {graph : Graph} {config : GrammarConfig} {grammar : Grammar}
    (built : (graph.build config).result = .ok grammar) {engine : Engine}
    (reachable : engine.Reachable grammar) (consumer : Consumer) (symbol : Symbol)
    (begins : (engine.arrive grammar consumer [symbol]).status.isRunning = true) :
    ∃ count last,
      Engine.InLoop grammar consumer (engine.arrive grammar consumer [symbol]) count last ∧
      last.advance grammar consumer = .settled (engine.feed grammar consumer symbol) ∧
      ∀ round current,
        Engine.InLoop grammar consumer (engine.arrive grammar consumer [symbol]) round current →
          round ≤ count ∧ ∀ next, current.advance grammar consumer = .ongoing next →
            current.Iterates grammar consumer next := by
  rcases Graph.build_ok built with ⟨rfl, resolved⟩
  rcases reachable.exists_holding resolved (Engine.running_of_arrive begins) with ⟨text, waiting⟩
  have awaits := Engine.awaits_arrive waiting symbol begins
  rcases awaits.exists_last resolved consumer with ⟨count, last, lastInLoop, settled⟩
  have feed_eq : engine.feed grammar consumer symbol =
      (engine.arrive grammar consumer [symbol]).settle grammar consumer := if_pos begins
  refine ⟨count, last, lastInLoop, ?_, ?_⟩
  · rw [feed_eq]
    exact settled
  · intro round current inLoop
    refine ⟨inLoop.le_of_settled lastInLoop settled, ?_⟩
    intro next advance_eq
    rcases awaits.inLoop resolved inLoop with ⟨running, _, text, waiting⟩
    exact Engine.iterates_of_advance resolved running waiting advance_eq

/-- A rule that reads a word and a dot. The rule that reads the word calls another one where the
word ends. -/
def Graph.closedWord : Graph :=
  (Assembly.assemble do
    let main ← Assembly.rule "main"
    let word ← Assembly.rule "word"
    let close ← Assembly.rule "close"
    let start ← Assembly.node main
    let spoken ← Assembly.node main
    let done ← Assembly.node main
    let letters ← Assembly.node word
    let closed ← Assembly.node word
    let _ ← Assembly.node close (.event "close")
    let _ ← Assembly.callEdge main start word spoken
    let _ ← Assembly.charEdge main spoken '.' done
    let _ ← Assembly.charEdge word letters 'a' letters
    Assembly.callEdge word letters close closed).2

def Grammar.closedWord : Grammar := Graph.closedWord.builtGrammar ⟨"main", 1, false⟩

/-- Before the dot is consumed, the word is left, and what it calls there. -/
theorem Grammar.decision_loop_ends_closedWord :
    (Graph.closedWord.build ⟨"main", 1, false⟩).result = .ok closedWord ∧
      ∃ engine : Engine, engine.Reachable closedWord ∧ engine.stack = [⟨1, 0⟩, ⟨0, 1⟩] ∧
        (engine.arrive closedWord .patient [.char '.']).status.isRunning = true ∧
        ∃ count last, Engine.InLoop closedWord .patient
            (engine.arrive closedWord .patient [.char '.']) count last ∧
          last.advance closedWord .patient =
            .settled (engine.feed closedWord .patient (.char '.')) := by
  have isOk : (Graph.closedWord.build ⟨"main", 1, false⟩).result.isOk = true := by decide +kernel
  have built : (Graph.closedWord.build ⟨"main", 1, false⟩).result = .ok closedWord :=
    Graph.build_eq_builtGrammar isOk
  have reachable : ((Engine.ofRule 0).afterCall closedWord
      (.consume .patient .chars ['a'])).Reachable closedWord := .afterCall (.ofRule 0) _
  have stack_eq : ((Engine.ofRule 0).afterCall closedWord
      (.consume .patient .chars ['a'])).stack = [⟨1, 0⟩, ⟨0, 1⟩] := by cbv
  have begins : (((Engine.ofRule 0).afterCall closedWord (.consume .patient .chars ['a'])).arrive
      closedWord .patient [.char '.']).status.isRunning = true := by cbv
  rcases Grammar.decision_loop_ends built reachable .patient (.char '.') begins with
    ⟨count, last, inLoop, settled, _⟩
  exact ⟨built, _, reachable, stack_eq, begins, count, last, inLoop, settled⟩

end StreamGrammar
