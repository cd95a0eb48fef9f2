import StreamGrammar.Bundled
import StreamGrammar.Proofs.WholeInput

/-!
# Building the bundled grammars

The bundled grammars can be built, the comma separated values only if the order of
declaration may decide. What is decided at their nodes is then known, and can be written
down as a table.
-/

namespace StreamGrammar

namespace BundledGrammar

/-- The rule graph that the declarations assemble. -/
def graph (bundled : BundledGrammar) : Graph := (Assembly.assemble bundled.declarations.1).2

/-- The grammar, in which the first rule is the start rule. -/
def grammar (bundled : BundledGrammar) (strict : Bool) : Grammar :=
  bundled.graph.resolvedGrammar { bundled.declarations.2 with strict } 0

theorem build_eq_ok {bundled : BundledGrammar} {strict : Bool}
    (isOk : (bundled.build strict).result.isOk = true) :
    (bundled.build strict).result = .ok (bundled.grammar strict) := by
  have built : (bundled.build strict).result = .ok _ := Graph.build_eq_builtGrammar isOk
  rw [built, Except.ok.injEq]
  rcases Graph.build_eq_ok_iff.mp built with ⟨_, start, start_eq, _, grammar_eq⟩
  have first_eq : bundled.graph.ruleByName? bundled.declarations.2.start = some 0 := by
    cases bundled <;> decide +kernel
  have same : start = 0 := Option.some.inj (start_eq.symm.trans first_eq)
  rw [grammar_eq, same]
  rfl

theorem exists_isResolved {bundled : BundledGrammar} {strict : Bool} {grammar : Grammar}
    (built : (bundled.build strict).result = .ok grammar) :
    ∃ limits, grammar.IsResolved limits :=
  ⟨_, (Graph.build_ok built).2⟩

theorem action_entry (bundled : BundledGrammar) (strict : Bool) :
    (bundled.grammar strict).action ⟨(bundled.grammar strict).start, Rule.entry⟩ = .none := by
  revert strict
  cases bundled <;> decide +kernel

theorem build_csv : (csv.build false).result = .ok (csv.grammar false) := by
  apply build_eq_ok
  decide +kernel

theorem build_ini (strict : Bool) : (ini.build strict).result = .ok (ini.grammar strict) := by
  apply build_eq_ok
  revert strict
  decide +kernel

theorem build_numbers (strict : Bool) :
    (numbers.build strict).result = .ok (numbers.grammar strict) := by
  apply build_eq_ok
  revert strict
  decide +kernel

end BundledGrammar

end StreamGrammar
