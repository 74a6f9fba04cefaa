import MessageCatalog.Catalog.Load
import MessageCatalog.Proofs.Plural.Staging

/-! The evaluation strategy of a rule is unobservable. Loads that differ in strategy alone give
related states, and look-ups respect the relation. -/
namespace MessageCatalog

/-- Rules choose by the value of the expression, whatever the strategy. -/
theorem Plural.Rule.selector_eq (r : Plural.Rule) : r.selector = r.expr.evaluate := by
  rw [selector]
  cases r.strategy with
  | interpreted => rfl
  | compiled => exact Expr.staged_eq r.expr

namespace Catalog

/-- States equal up to the evaluation strategy. -/
structure State.Agrees (s t : State) : Prop where
  messages : s.messages = t.messages
  fields : s.fields = t.fields
  locale : s.locale = t.locale
  warnings : s.warnings = t.warnings
  forms : s.rule.forms = t.rule.forms
  expr : s.rule.expr = t.rule.expr

namespace State.Agrees

variable {s t : State} (agrees : s.Agrees t)

include agrees

theorem index_eq (n : Int64) : s.rule.index n = t.rule.index n := by
  rw [Plural.Rule.index, Plural.Rule.index, Plural.Rule.selector_eq, Plural.Rule.selector_eq,
    agrees.expr]

theorem singular_eq (context : Option String) (id : String) :
    s.singular context id = t.singular context id := by
  rw [singular, singular, agrees.messages]

theorem plural_eq (context : Option String) (id pluralId : String) (n : Int64) :
    s.plural context id pluralId n = t.plural context id pluralId n := by
  have chosen (forms : List String) : s.chosen? forms n = t.chosen? forms n := by
    rw [chosen?, chosen?, agrees.index_eq, agrees.forms]
  simp only [plural, agrees.messages, chosen]

theorem answer_eq (q : Query) : s.answer q = t.answer q := by
  simp only [answer, agrees.singular_eq, agrees.plural_eq]

end State.Agrees

namespace State

/-- The strategy has no part in reading a header. -/
theorem ruleOf_congr (fields : Header.Fields) (one other : Plural.Strategy) :
    (ruleOf fields one).1.forms = (ruleOf fields other).1.forms ∧
      (ruleOf fields one).1.expr = (ruleOf fields other).1.expr ∧
      (ruleOf fields one).2 = (ruleOf fields other).2 := by
  rw [ruleOf, ruleOf]
  cases fields.value? "Plural-Forms" with
  | none => exact ⟨rfl, rfl, rfl⟩
  | some text =>
    dsimp only
    rw [Plural.Rule.ofHeader, Plural.Rule.ofHeader]
    cases Plural.parseForms text with
    | ok read => exact ⟨rfl, rfl, rfl⟩
    | error cause => exact ⟨rfl, rfl, rfl⟩

theorem agrees_ofContents {E : Type} (c : Image.Contents E) (locale : String)
    (one other : Plural.Strategy) :
    (ofContents c locale one).Agrees (ofContents c locale other) :=
  have ⟨forms, expr, warnings⟩ := ruleOf_congr c.fields one other
  { messages := rfl
    fields := rfl
    locale := rfl
    warnings := congrArg (c.warnings ++ ·) warnings
    forms := forms
    expr := expr }

end State

/-- For all data, locales, encodings and charset handling. -/
theorem strategy_unobservable {E : Type} [Charset.Encodings E] (data : List UInt8)
    (locale : String) (encoding : E) (detect : Bool) :
    (∃ problem, State.ofImage ⟨encoding, detect, .interpreted⟩ locale data = .error problem ∧
      State.ofImage ⟨encoding, detect, .compiled⟩ locale data = .error problem) ∨
    ∃ s t, State.ofImage ⟨encoding, detect, .interpreted⟩ locale data = .ok s ∧
      State.ofImage ⟨encoding, detect, .compiled⟩ locale data = .ok t ∧
      s.Agrees t ∧ ∀ q : Query, s.answer q = t.answer q := by
  have same : Image.read ⟨encoding, detect, .interpreted⟩ data =
      Image.read ⟨encoding, detect, .compiled⟩ data := rfl
  rw [State.ofImage, State.ofImage, same]
  cases Image.read ⟨encoding, detect, .compiled⟩ data with
  | error problem => exact .inl ⟨problem, rfl, rfl⟩
  | ok image =>
    have agrees := State.agrees_ofContents image.contents locale .interpreted .compiled
    exact .inr ⟨_, _, rfl, rfl, agrees, agrees.answer_eq⟩

end Catalog
end MessageCatalog
