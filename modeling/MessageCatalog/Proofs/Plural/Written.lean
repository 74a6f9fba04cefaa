import MessageCatalog.Header.Fields
import MessageCatalog.Proofs.Plural.Parameters

/-! A rendered rule survives its header: the field has no line end and no blank at its end, and is
parsed back. -/
namespace MessageCatalog.Plural

theorem isLineEnd_of_le {c : Char} (large : 32 ≤ c.toNat) : Header.isLineEnd c = false := by
  refine Bool.eq_false_iff.2 fun ends => ?_
  rcases Bool.or_eq_true_iff.1 ends with feed | carriage
  · rw [beq_iff_eq.1 feed] at large
    exact absurd large (by decide)
  · rw [beq_iff_eq.1 carriage] at large
    exact absurd large (by decide)

def formsText (forms : Nat) (e : Expr) : String :=
  "nplurals=" ++ toString forms ++ "; plural=" ++ e.render

theorem toList_formsText (forms : Nat) (e : Expr) :
    (formsText forms e).toList =
      "nplurals=".toList ++ (Nat.toDigits 10 forms ++ ("; plural=".toList ++ e.written)) := by
  simp [formsText, Expr.render, List.append_assoc]

theorem parseForms_formsText (forms : Nat) {e : Expr} (reads : parse e.render = .ok e) :
    parseForms (formsText forms e) =
      if forms < UInt64.size then .ok (UInt64.ofNat forms, e)
      else .error (.invalidNumber (String.ofList (Nat.toDigits 10 forms))) := by
  have same : (formsText forms e).toList = countFirst countName formulaName [' '] [] forms e := by
    rw [toList_formsText]
    simp [countFirst, countName, formulaName]
  exact parseForms_of_fields (by decide) (by decide) (.inr rfl) (.inl rfl) reads (.inl same)

def headerText (forms : Nat) (e : Expr) : String := "Plural-Forms: " ++ formsText forms e

theorem trim_formsText (forms : Nat) (e : Expr) :
    Text.trim (' ' :: (formsText forms e).toList) = (formsText forms e).toList := by
  obtain ⟨front, last, ends, solid⟩ := e.written_eq_concat
  have first : (' ' :: (formsText forms e).toList).dropWhile Text.isBlank =
      (formsText forms e).toList := by
    rw [toList_formsText]
    rfl
  have text : (formsText forms e).toList.reverse = last ::
      ("nplurals=".toList ++ (Nat.toDigits 10 forms ++ ("; plural=".toList ++ front))).reverse := by
    rw [toList_formsText, ends]
    simp only [← List.append_assoc, List.reverse_concat]
  rw [Text.trim, Text.stripBoth, first, text, List.dropWhile_cons_of_neg (by simp [solid]), ← text,
    List.reverse_reverse]

theorem le_toNat_of_mem_headerText {forms : Nat} {e : Expr} :
    ∀ c ∈ (headerText forms e).toList, 32 ≤ c.toNat := by
  have digits : ∀ c ∈ Nat.toDigits 10 forms, 32 ≤ c.toNat := fun c member =>
    (carried_of_isDigit (isDigit_toDigits member)).1
  have formula : ∀ c ∈ e.written, 32 ≤ c.toNat := fun c member => (e.carried_written c member).1
  have name : ∀ c ∈ "Plural-Forms: ".toList, 32 ≤ c.toNat := List.all_iff_forall_prop.1 (by decide)
  have count : ∀ c ∈ "nplurals=".toList, 32 ≤ c.toNat := List.all_iff_forall_prop.1 (by decide)
  have key : ∀ c ∈ "; plural=".toList, 32 ≤ c.toNat := List.all_iff_forall_prop.1 (by decide)
  rw [headerText, String.toList_append, toList_formsText]
  simp only [List.forall_mem_append]
  exact ⟨name, count, digits, key, formula⟩

theorem parse_headerText (forms : Nat) (e : Expr) :
    Header.Fields.parse (headerText forms e).toList =
      Table.empty.insert "Plural-Forms" (formsText forms e) := by
  have text : (headerText forms e).toList =
      "Plural-Forms".toList ++ ':' :: ' ' :: (formsText forms e).toList := by
    rw [headerText, String.toList_append]
    rfl
  have line : ∀ c ∈ (headerText forms e).toList, Header.isLineEnd c = false := fun c member =>
    isLineEnd_of_le (le_toNat_of_mem_headerText c member)
  have cut : Text.cut ':' (headerText forms e).toList =
      some ("Plural-Forms".toList, ' ' :: (formsText forms e).toList) :=
    Text.cut_eq_some_iff.2 ⟨text, by decide⟩
  have said : Header.parseLine (headerText forms e).toList =
      some ("Plural-Forms", formsText forms e) := by
    have name : Text.trim "Plural-Forms".toList = "Plural-Forms".toList := by decide
    simp only [Header.parseLine, cut, name, trim_formsText, String.ofList_toList]
    rfl
  rw [Header.Fields.parse, Header.statements, List.splitOnP_eq_singleton line,
    List.filterMap_cons_some said]
  rfl

end MessageCatalog.Plural
