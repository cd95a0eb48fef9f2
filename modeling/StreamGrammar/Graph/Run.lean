import StreamGrammar.Route

/-!
# Runs of a rule graph

What a rule graph means, independently of how its decisions are resolved. The state
of a run is the stack of the rules being run, each with the node that it is at or
will continue at. `Step.IsEnabled` says which steps the graph allows, `Step.apply`
what they do to the stack, and `Run` puts them together: a run relates two stacks by
the steps between them and the text that they consume. A text belongs to a rule if a
run from the rule's entry consumes it and empties the stack.
-/

namespace StreamGrammar

namespace Step

/-- The rules being run after a step, the innermost first. -/
def apply (step : Step) (stack : List Frame) : List Frame :=
  match stack, step with
  | top :: below, .call rule resume => ⟨rule, Rule.entry⟩ :: { top with node := resume } :: below
  | [], .call rule _ => [⟨rule, Rule.entry⟩]
  | top :: below, .goto node => { top with node } :: below
  | top :: below, .consume _ target => { top with node := target } :: below
  | _ :: below, .leave => below
  | [], _ => []

/-- The kind and the target of the edge that a step follows. Leaving a rule follows none. -/
def edge? : Step → Option (EdgeKind × NodeId)
  | .call rule resume => some (.call rule, resume)
  | .goto node => some (.goto, node)
  | .leave => none
  | .consume matcher target => some (.consume matcher, target)

/-- The graph allows the step: there is such an edge at the innermost node or, if the step leaves a
rule, there is none at all. -/
def IsEnabled (graph : Graph) (stack : List Frame) (step : Step) : Prop :=
  match stack with
  | [] => False
  | top :: _ =>
      match step.edge? with
      | some (kind, target) =>
          ∃ edge ∈ graph.outgoing top, edge.kind = kind ∧ edge.target = target
      | none => graph.outgoing top = []

instance (graph : Graph) (stack : List Frame) (step : Step) :
    Decidable (step.IsEnabled graph stack) := by
  unfold IsEnabled
  split
  · infer_instance
  · split <;> infer_instance

/-- The step consumes exactly the given text. -/
def Reads (graph : Graph) (step : Step) (text : List Char) : Prop :=
  match step, text with
  | .consume matcher _, [character] => graph.accepts matcher (.char character) = true
  | .consume .., _ => False
  | _, text => text = []

end Step

/-- The graph allows the steps one after the other from `stack` to `final`, and they consume the
text. -/
inductive Run (graph : Graph) : (stack : List Frame) → Path → List Char → (final : List Frame) → Prop
  | refl (stack : List Frame) : Run graph stack [] [] stack
  | step {stack final : List Frame} {step : Step} {steps : Path} {read text : List Char}
      (enabled : step.IsEnabled graph stack) (reads : step.Reads graph read)
      (rest : Run graph (step.apply stack) steps text final) :
      Run graph stack (step :: steps) (read ++ text) final

namespace Run

variable {graph : Graph}

/-- Runs compose. -/
theorem trans {stack middle final : List Frame} {steps furtherSteps : Path}
    {text furtherText : List Char} (first : Run graph stack steps text middle)
    (second : Run graph middle furtherSteps furtherText final) :
    Run graph stack (steps ++ furtherSteps) (text ++ furtherText) final := by
  induction first with
  | refl => exact second
  | step enabled reads _ ih =>
      rw [List.cons_append, List.append_assoc]
      exact .step enabled reads (ih second)

/-- The stack that a run ends with is what its steps make of the one that it begins with. -/
theorem final_eq {stack final : List Frame} {steps : Path} {text : List Char}
    (run : Run graph stack steps text final) :
    final = steps.foldl (fun current step => step.apply current) stack := by
  induction run with
  | refl => rfl
  | step _ _ _ ih => exact ih

end Run

/-- The rule, run by itself, can consume exactly the given text. -/
def Graph.Derives (graph : Graph) (rule : RuleId) (text : List Char) : Prop :=
  ∃ steps, Run graph [⟨rule, Rule.entry⟩] steps text []

end StreamGrammar
