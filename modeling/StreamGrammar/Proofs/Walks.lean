import Mathlib.Data.List.Forall2
import StreamGrammar.Graph.Run

/-!
# Walks through a rule graph

A walk is a run without its text: the graph allows its steps one after the other.
What a run consumes is then a text that its matchers accept one by one, so that
walks can be planned before any input is seen. This file also relates the walks on
a stack to those on its upper part: a walk that never gives up the frames below
leaves them as they are, and every other one first empties the upper part.
-/

namespace StreamGrammar

def Step.matcher? : Step → Option MatcherId
  | .consume matcher _ => some matcher
  | _ => none

/-- The matchers of the consuming steps, in order. -/
def Path.matchers (path : Path) : List MatcherId := path.filterMap Step.matcher?

namespace Path

@[simp]
theorem matchers_nil : Path.matchers [] = [] := rfl

@[simp]
theorem matchers_consume (matcher : MatcherId) (target : NodeId) (rest : Path) :
    Path.matchers (.consume matcher target :: rest) = matcher :: Path.matchers rest := rfl

@[simp]
theorem matchers_goto (node : NodeId) (rest : Path) :
    Path.matchers (.goto node :: rest) = Path.matchers rest := rfl

@[simp]
theorem matchers_call (rule : RuleId) (resume : NodeId) (rest : Path) :
    Path.matchers (.call rule resume :: rest) = Path.matchers rest := rfl

@[simp]
theorem matchers_leave (rest : Path) : Path.matchers (.leave :: rest) = Path.matchers rest := rfl

@[simp]
theorem matchers_append (first second : Path) :
    Path.matchers (first ++ second) = Path.matchers first ++ Path.matchers second :=
  List.filterMap_append

theorem exists_first_consume {steps : Path} (consumes : Path.matchers steps ≠ []) :
    ∃ silent matcher target rest, steps = silent ++ .consume matcher target :: rest ∧
      Path.matchers silent = [] := by
  induction steps with
  | nil => simp at consumes
  | cons step steps ih =>
      cases step with
      | consume matcher target => exact ⟨[], matcher, target, steps, rfl, rfl⟩
      | call rule resume =>
          rcases ih consumes with ⟨silent, matcher, target, rest, rfl, silent_eq⟩
          exact ⟨.call rule resume :: silent, matcher, target, rest, rfl, silent_eq⟩
      | goto node =>
          rcases ih consumes with ⟨silent, matcher, target, rest, rfl, silent_eq⟩
          exact ⟨.goto node :: silent, matcher, target, rest, rfl, silent_eq⟩
      | leave =>
          rcases ih consumes with ⟨silent, matcher, target, rest, rfl, silent_eq⟩
          exact ⟨.leave :: silent, matcher, target, rest, rfl, silent_eq⟩

end Path

/-- The matchers accept the code points of the text one by one. -/
def Graph.Spells (graph : Graph) (matchers : List MatcherId) (text : List Char) : Prop :=
  List.Forall₂ (fun matcher character => graph.accepts matcher (.char character) = true)
    matchers text

namespace Step

variable {graph : Graph}

theorem not_isEnabled_nil (step : Step) : ¬step.IsEnabled graph [] := id

theorem stack_ne_nil_of_isEnabled {stack : List Frame} {step : Step}
    (enabled : step.IsEnabled graph stack) : stack ≠ [] := by
  rintro rfl
  exact not_isEnabled_nil step enabled

/-- Only the innermost frame decides which steps are allowed. -/
theorem isEnabled_append {above below : List Frame} {step : Step} (above_ne : above ≠ []) :
    step.IsEnabled graph (above ++ below) ↔ step.IsEnabled graph above := by
  cases above with
  | nil => contradiction
  | cons top rest => exact Iff.rfl

theorem apply_append {above below : List Frame} {step : Step} (above_ne : above ≠ []) :
    step.apply (above ++ below) = step.apply above ++ below := by
  cases above with
  | nil => contradiction
  | cons top rest => cases step <;> rfl

/-- The edge that a step other than leaving follows. -/
theorem exists_edge_of_isEnabled {top : Frame} {below : List Frame} {step : Step}
    (enabled : step.IsEnabled graph (top :: below)) (stays : step ≠ .leave) :
    ∃ edge ∈ graph.outgoing top, step.edge? = some (edge.kind, edge.target) := by
  cases step with
  | leave => contradiction
  | call | goto | consume =>
      rcases enabled with ⟨edge, edge_mem, kind_eq, target_eq⟩
      exact ⟨edge, edge_mem, by rw [kind_eq, target_eq]; rfl⟩

/-- A consuming step reads one code point, which its matcher accepts. -/
theorem exists_of_reads_consume {matcher : MatcherId} {target : NodeId} {read : List Char}
    (reads : (Step.consume matcher target).Reads graph read) :
    ∃ character, read = [character] ∧ graph.accepts matcher (.char character) = true := by
  cases read with
  | nil => exact reads.elim
  | cons character rest =>
      cases rest with
      | nil => exact ⟨character, rfl, reads⟩
      | cons => exact reads.elim

theorem reads_iff_spells {step : Step} {read : List Char} :
    step.Reads graph read ↔ graph.Spells step.matcher?.toList read := by
  cases step with
  | call | goto | leave => simp [Reads, Graph.Spells, matcher?]
  | consume matcher target =>
      match read with
      | [] => simp [Reads, Graph.Spells, matcher?]
      | [character] => simp [Reads, Graph.Spells, matcher?]
      | first :: second :: rest => simp [Reads, Graph.Spells, matcher?]

end Step

theorem Step.length_le_of_reads {graph : Graph} {step : Step} {read : List Char}
    (reads : step.Reads graph read) : read.length ≤ 1 := by
  have length_eq := List.Forall₂.length_eq (Step.reads_iff_spells.mp reads)
  rw [← length_eq]
  exact Option.length_toList_le

theorem Path.matchers_cons (step : Step) (rest : Path) :
    Path.matchers (step :: rest) = step.matcher?.toList ++ Path.matchers rest := by
  cases step <;> rfl

/-- The graph allows the steps one after the other. -/
inductive Walk (graph : Graph) : (stack : List Frame) → Path → (final : List Frame) → Prop
  | refl (stack : List Frame) : Walk graph stack [] stack
  | step {stack final : List Frame} {step : Step} {steps : Path}
      (enabled : step.IsEnabled graph stack) (rest : Walk graph (step.apply stack) steps final) :
      Walk graph stack (step :: steps) final

namespace Walk

variable {graph : Graph}

theorem nil_iff {stack final : List Frame} : Walk graph stack [] final ↔ final = stack := by
  constructor
  · intro walk
    cases walk
    rfl
  · rintro rfl
    exact .refl _

theorem cons_iff {stack final : List Frame} {step : Step} {steps : Path} :
    Walk graph stack (step :: steps) final ↔
      step.IsEnabled graph stack ∧ Walk graph (step.apply stack) steps final := by
  constructor
  · intro walk
    cases walk with
    | step enabled rest => exact ⟨enabled, rest⟩
  · rintro ⟨enabled, rest⟩
    exact .step enabled rest

instance decidable (graph : Graph) : (stack : List Frame) → (steps : Path) →
    (final : List Frame) → Decidable (Walk graph stack steps final)
  | stack, [], final => decidable_of_iff (final = stack) nil_iff.symm
  | stack, first :: rest, final =>
      have := decidable graph (first.apply stack) rest final
      decidable_of_iff _ cons_iff.symm

theorem append_iff {stack final : List Frame} {first second : Path} :
    Walk graph stack (first ++ second) final ↔
      ∃ middle, Walk graph stack first middle ∧ Walk graph middle second final := by
  induction first generalizing stack with
  | nil => simp [nil_iff]
  | cons step rest ih => simp only [List.cons_append, cons_iff, ih, and_assoc, exists_and_left]

theorem trans {stack middle final : List Frame} {first second : Path}
    (before : Walk graph stack first middle) (after : Walk graph middle second final) :
    Walk graph stack (first ++ second) final :=
  append_iff.mpr ⟨middle, before, after⟩

/-- Where a walk leads to is fixed by its steps. -/
theorem final_unique {stack final other : List Frame} {steps : Path}
    (walk : Walk graph stack steps final) (otherWalk : Walk graph stack steps other) :
    final = other := by
  induction walk with
  | refl => exact (nil_iff.mp otherWalk).symm
  | step _ _ ih => exact ih (cons_iff.mp otherWalk).2

theorem eq_nil_of_empty {steps : Path} {final : List Frame} (walk : Walk graph [] steps final) :
    steps = [] ∧ final = [] := by
  cases walk with
  | refl => exact ⟨rfl, rfl⟩
  | step enabled _ => exact (Step.not_isEnabled_nil _ enabled).elim

theorem onTop {stack final : List Frame} {steps : Path} (walk : Walk graph stack steps final)
    (below : List Frame) : Walk graph (stack ++ below) steps (final ++ below) := by
  induction walk with
  | refl => exact .refl _
  | step enabled _ ih =>
      have stack_ne := Step.stack_ne_nil_of_isEnabled enabled
      refine .step ((Step.isEnabled_append stack_ne).mpr enabled) ?_
      rw [Step.apply_append stack_ne]
      exact ih

/-- A walk either keeps to the upper part of the stack, or first empties it and then goes on with
the lower part. -/
theorem keeps_or_empties {above below final : List Frame} {steps : Path}
    (walk : Walk graph (above ++ below) steps final) :
    (∃ kept, final = kept ++ below ∧ kept ≠ [] ∧ Walk graph above steps kept) ∨
      ∃ first second, steps = first ++ second ∧ Walk graph above first [] ∧
        Walk graph below second final := by
  induction steps generalizing above with
  | nil =>
      obtain rfl := nil_iff.mp walk
      cases above with
      | nil => exact .inr ⟨[], [], rfl, .refl [], .refl below⟩
      | cons top rest => exact .inl ⟨top :: rest, rfl, by simp, .refl _⟩
  | cons step steps ih =>
      cases above with
      | nil => exact .inr ⟨[], step :: steps, rfl, .refl [], walk⟩
      | cons top rest =>
          have above_ne : top :: rest ≠ [] := by simp
          rcases cons_iff.mp walk with ⟨enabled, walkRest⟩
          rw [Step.isEnabled_append above_ne] at enabled
          rw [Step.apply_append above_ne] at walkRest
          rcases ih walkRest with
            ⟨kept, final_eq, kept_ne, keeps⟩ | ⟨first, second, rfl, empties, goesOn⟩
          · exact .inl ⟨kept, final_eq, kept_ne, .step enabled keeps⟩
          · exact .inr ⟨step :: first, second, rfl, .step enabled empties, goesOn⟩

end Walk

namespace Graph.Spells

variable {graph : Graph}

theorem length_eq {matchers : List MatcherId} {text : List Char}
    (spells : graph.Spells matchers text) : matchers.length = text.length :=
  List.Forall₂.length_eq spells

theorem append {first second : List MatcherId} {firstText secondText : List Char}
    (firstSpells : graph.Spells first firstText) (secondSpells : graph.Spells second secondText) :
    graph.Spells (first ++ second) (firstText ++ secondText) :=
  List.rel_append firstSpells secondSpells

theorem append_iff {first second : List MatcherId} {text : List Char} :
    graph.Spells (first ++ second) text ↔
      ∃ firstText secondText, text = firstText ++ secondText ∧ graph.Spells first firstText ∧
        graph.Spells second secondText := by
  constructor
  · intro spells
    have firstSpells := List.forall₂_take first.length spells
    have secondSpells := List.forall₂_drop first.length spells
    rw [List.take_left] at firstSpells
    rw [List.drop_left] at secondSpells
    exact ⟨_, _, (List.take_append_drop first.length text).symm, firstSpells, secondSpells⟩
  · rintro ⟨firstText, secondText, rfl, firstSpells, secondSpells⟩
    exact firstSpells.append secondSpells

end Graph.Spells

namespace Run

variable {graph : Graph}

/-- A run is a walk with a text that its matchers accept. -/
theorem iff_walk {stack final : List Frame} {steps : Path} {text : List Char} :
    Run graph stack steps text final ↔
      Walk graph stack steps final ∧ graph.Spells (Path.matchers steps) text := by
  constructor
  · intro run
    induction run with
    | refl stack => exact ⟨.refl stack, .nil⟩
    | step enabled reads _ ih =>
        refine ⟨.step enabled ih.1, ?_⟩
        rw [Path.matchers_cons]
        exact (Step.reads_iff_spells.mp reads).append ih.2
  · rintro ⟨walk, spells⟩
    induction walk generalizing text with
    | refl stack =>
        obtain rfl := List.forall₂_nil_left_iff.mp spells
        exact .refl stack
    | step enabled _ ih =>
        rw [Path.matchers_cons] at spells
        rcases Graph.Spells.append_iff.mp spells with ⟨read, rest, rfl, reads, restSpells⟩
        exact .step enabled (Step.reads_iff_spells.mpr reads) (ih restSpells)

theorem append_iff {stack final : List Frame} {first second : Path} {text : List Char} :
    Run graph stack (first ++ second) text final ↔
      ∃ middle firstText secondText, text = firstText ++ secondText ∧
        Run graph stack first firstText middle ∧ Run graph middle second secondText final := by
  simp only [iff_walk, Path.matchers_append, Walk.append_iff, Graph.Spells.append_iff]
  constructor
  · rintro ⟨⟨middle, before, after⟩, firstText, secondText, rfl, firstSpells, secondSpells⟩
    exact ⟨middle, firstText, secondText, rfl, ⟨before, firstSpells⟩, after, secondSpells⟩
  · rintro ⟨middle, firstText, secondText, rfl, ⟨before, firstSpells⟩, after, secondSpells⟩
    exact ⟨⟨middle, before, after⟩, firstText, secondText, rfl, firstSpells, secondSpells⟩

/-- What is left of a run, and of its text, after the first steps. -/
theorem rest_of_append {stack final : List Frame} {first second : Path} {text : List Char}
    (run : Run graph stack (first ++ second) text final) :
    Run graph (first.foldl (fun current step => step.apply current) stack) second
      (text.drop (Path.matchers first).length) final := by
  rcases append_iff.mp run with ⟨middle, firstText, secondText, rfl, firstRun, secondRun⟩
  have length_eq := (iff_walk.mp firstRun).2.length_eq
  rw [length_eq, List.drop_left, ← firstRun.final_eq]
  exact secondRun

theorem eq_nil_of_empty {steps : Path} {text : List Char} {final : List Frame}
    (run : Run graph [] steps text final) : steps = [] ∧ text = [] := by
  rcases iff_walk.mp run with ⟨walk, spells⟩
  rcases walk.eq_nil_of_empty with ⟨rfl, _⟩
  exact ⟨rfl, List.forall₂_nil_left_iff.mp spells⟩

/-- A run can be cut wherever its text can. -/
theorem exists_cut {stack final : List Frame} {steps : Path} {text : List Char}
    (run : Run graph stack steps text final) {count : Nat} (count_le : count ≤ text.length) :
    ∃ first second middle, steps = first ++ second ∧
      Run graph stack first (text.take count) middle ∧
        Run graph middle second (text.drop count) final := by
  induction run generalizing count with
  | refl stack =>
      refine ⟨[], [], stack, rfl, ?_, ?_⟩
      · simpa using Run.refl stack
      · simpa using Run.refl stack
  | @step stack final step steps read text enabled reads rest ih =>
      have read_le := Step.length_le_of_reads reads
      cases count with
      | zero => exact ⟨[], step :: steps, stack, rfl, .refl stack, .step enabled reads rest⟩
      | succ count =>
          have rest_le : count + 1 - read.length ≤ text.length := by
            rw [List.length_append] at count_le
            omega
          rcases ih rest_le with ⟨first, second, middle, rfl, firstRun, secondRun⟩
          refine ⟨step :: first, second, middle, rfl, ?_, ?_⟩
          · rw [List.take_append, List.take_of_length_le (by omega)]
            exact .step enabled reads firstRun
          · rw [List.drop_append, List.drop_of_length_le (by omega), List.nil_append]
            exact secondRun

theorem onTop {stack final : List Frame} {steps : Path} {text : List Char}
    (run : Run graph stack steps text final) (below : List Frame) :
    Run graph (stack ++ below) steps text (final ++ below) := by
  rw [iff_walk] at run ⊢
  exact ⟨run.1.onTop below, run.2⟩

/-- A run that empties a stack first empties the upper part of it, and then the lower one. -/
theorem empties_upper {above below : List Frame} {steps : Path} {text : List Char}
    (run : Run graph (above ++ below) steps text []) :
    ∃ first second firstText secondText, steps = first ++ second ∧
      text = firstText ++ secondText ∧ Run graph above first firstText [] ∧
        Run graph below second secondText [] := by
  rcases iff_walk.mp run with ⟨walk, spells⟩
  rcases walk.keeps_or_empties with
    ⟨kept, final_eq, kept_ne, _⟩ | ⟨first, second, rfl, empties, goesOn⟩
  · simp_all
  · rw [Path.matchers_append] at spells
    rcases Graph.Spells.append_iff.mp spells with
      ⟨firstText, secondText, rfl, firstSpells, secondSpells⟩
    exact ⟨first, second, firstText, secondText, rfl, rfl, iff_walk.mpr ⟨empties, firstSpells⟩,
      iff_walk.mpr ⟨goesOn, secondSpells⟩⟩

end Run

end StreamGrammar
