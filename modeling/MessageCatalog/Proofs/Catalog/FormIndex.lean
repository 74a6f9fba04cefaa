import MessageCatalog.Proofs.Catalog.Answers
import MessageCatalog.Proofs.Catalog.Strategies

/-! From the value of a rule to the index of a form. Values within 32 signed bits are kept, so out
of range they give the text of the caller; other values are cut and may hit a form. -/
namespace MessageCatalog

namespace Plural

def Rule.Counts (r : Rule) (index : Int) : Prop := 0 ≤ index ∧ index < r.forms.toNat

instance (r : Rule) (index : Int) : Decidable (r.Counts index) :=
  inferInstanceAs (Decidable (_ ∧ _))

/-- Representable in 32 signed bits. -/
def IsHalfWord (value : Int64) : Prop := -0x80000000 ≤ value.toInt ∧ value.toInt < 0x80000000

instance (value : Int64) : Decidable (IsHalfWord value) := inferInstanceAs (Decidable (_ ∧ _))

theorem toInt_toInt32_of_isHalfWord {value : Int64} (h : IsHalfWord value) :
    value.toInt32.toInt = value.toInt := by
  rw [Int64.toInt_toInt32]
  apply Int.bmod_eq_of_le
  · exact h.1
  · exact h.2

theorem Rule.index_of_evaluate {r : Rule} {n value : Int64} (h : r.expr.evaluate n = .ok value) :
    r.index n = .ok value.toInt32 := by
  rw [index, selector_eq, h]
  rfl

end Plural

namespace Catalog

namespace State

variable {s : State} {context : Option String} {id form : String} {n value : Int64}

theorem lacks_of_not_counts (h : s.rule.expr.evaluate n = .ok value)
    (outside : ¬s.rule.Counts value.toInt32.toInt) : s.Lacks context id n := by
  have yields := Plural.Rule.index_of_evaluate h
  by_cases negative : value.toInt32.toInt < 0
  · exact .negative yields negative
  · apply Lacks.uncounted yields
    by_contra counted
    exact outside ⟨Int.not_lt.1 negative, Int.not_le.1 counted⟩

theorem tells_of_counts (h : s.rule.expr.evaluate n = .ok value)
    (inside : s.rule.Counts value.toInt32.toInt)
    (stores : s.Stores context id value.toInt32.toInt.toNat form) : s.Tells context id n form :=
  ⟨value.toInt32, Plural.Rule.index_of_evaluate h, inside.1, inside.2, stores⟩

end State

/-- For every state and every count at which its rule has a value. -/
theorem own_text_out_of_range (s : State) (n value : Int64)
    (evaluates : s.rule.expr.evaluate n = .ok value) (context : Option String)
    (id pluralId : String) :
    let index := value.toInt32.toInt
    let own := if n = 1 then id else pluralId
    (¬s.rule.Counts index →
      s.plural context id pluralId n = own ∧ ∀ form, ¬s.Tells context id n form) ∧
    (Plural.IsHalfWord value → ¬s.rule.Counts value.toInt →
      s.plural context id pluralId n = own ∧ ∀ form, ¬s.Tells context id n form) ∧
    (s.rule.Counts index → ∀ form, s.Stores context id index.toNat form →
      s.plural context id pluralId n = form) := by
  intro index own
  have falls (outside : ¬s.rule.Counts index) :
      s.plural context id pluralId n = own ∧ ∀ form, ¬s.Tells context id n form := by
    have lacks : s.Lacks context id n := State.lacks_of_not_counts evaluates outside
    exact ⟨State.plural_of_lacks lacks, fun _ => lacks.not_tells⟩
  refine ⟨falls, fun half outside => falls ?_, fun inside form stores => ?_⟩
  · rwa [← Plural.toInt_toInt32_of_isHalfWord half] at outside
  · exact State.plural_of_tells (State.tells_of_counts evaluates inside stores)

def oneFormSource : Source Charset.Cyrillic :=
  .image .standard "de" ((Image.Draft.empty.add "" "Plural-Forms: nplurals=1; plural=n;").add "a"
    "x").bytes

def oneForm : State where
  messages := Table.empty.insert "a" ["x"]
  fields := Table.empty.insert "Plural-Forms" "nplurals=1; plural=n;"
  rule := ⟨1, .count, .compiled⟩
  locale := "de"
  warnings := []

/-- 2^32 + 5 is cut to 5, and -1 stays; neither is the index of the one form. -/
theorem own_text_out_of_range_oneForm :
    oneFormSource.load = .ok oneForm ∧
      oneForm.rule.expr.evaluate 0x100000005 = .ok 0x100000005 ∧
      ¬oneForm.rule.Counts (0x100000005 : Int64).toInt32.toInt ∧
      oneForm.plural none "a" "as" 0x100000005 = "as" ∧
      oneForm.rule.expr.evaluate (-1) = .ok (-1) ∧ Plural.IsHalfWord (-1) ∧
      ¬oneForm.rule.Counts (-1 : Int64).toInt ∧ oneForm.plural none "a" "as" (-1) = "as" ∧
      oneForm.rule.Counts (0 : Int64).toInt32.toInt ∧ oneForm.plural none "a" "as" 0 = "x" := by
  have loaded : oneFormSource.load = .ok oneForm := by decide +kernel
  have value (n : Int64) : oneForm.rule.expr.evaluate n = .ok n := rfl
  have beyond : ¬oneForm.rule.Counts (0x100000005 : Int64).toInt32.toInt := by decide
  have half : Plural.IsHalfWord (-1) := by decide
  have negative : ¬oneForm.rule.Counts (-1 : Int64).toInt := by decide
  have counted : oneForm.rule.Counts (0 : Int64).toInt32.toInt := by decide
  have stored : oneForm.Stores none "a" 0 "x" := ⟨["x"], rfl, rfl, by decide⟩
  have told (n : Int64) := own_text_out_of_range oneForm n n (value n) none "a" "as"
  exact ⟨loaded, value _, beyond, ((told 0x100000005).1 beyond).1, value _, half, negative,
    ((told (-1)).2.1 half negative).1, counted, (told 0).2.2 counted "x" stored⟩

/-- A value far beyond the forms whose low bits are the index of one. -/
theorem form_of_cut_value :
    oneFormSource.load = .ok oneForm ∧
      oneForm.rule.expr.evaluate 0x100000000 = .ok 0x100000000 ∧
      ¬oneForm.rule.Counts (0x100000000 : Int64).toInt ∧
      oneForm.plural none "a" "as" 0x100000000 = "x" ∧
      (if (0x100000000 : Int64) = 1 then "a" else "as") = "as" := by
  refine ⟨?_, rfl, ?_, ?_, ?_⟩ <;> decide +kernel

end Catalog
end MessageCatalog
