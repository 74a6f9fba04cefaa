import MessageCatalog.Proofs.Plural.Parameters
import MessageCatalog.Proofs.Plural.SameTokens

/-! The end of an expression in a header. The formula is cut at the first terminator and a lexer
never passes one, so the cut shows only in the fault of half of a doubled sign right before it. -/
namespace MessageCatalog.Plural

/-- The tail is empty or starts with a terminator. -/
def Closes (tail : List Char) : Prop := ∀ c ∈ tail.head?, endsExpression c = true

section Split

variable {before passed rest left tail u v digits taken : List Char} {kind : Kind}

/-- A piece without terminator stands before the first terminator. -/
theorem split_of_closes (closes : Closes tail) (goes : ∀ c ∈ passed, endsExpression c = false)
    (split : passed ++ rest = left ++ tail) :
    ∃ more, left = passed ++ more ∧ rest = more ++ tail := by
  rcases List.append_eq_append_iff.1 split with ⟨more, rfl, here⟩ | ⟨more, rfl, here⟩
  · exact ⟨more, rfl, here⟩
  · cases more with
    | nil => exact ⟨[], by simp, here.symm⟩
    | cons c more =>
      have ends : endsExpression c = true := closes c (by simp [here])
      rw [goes c (by simp)] at ends
      cases ends

theorem isDigit_of_endsExpression {c : Char} (ends : endsExpression c = true) :
    c.isDigit = false := by
  refine Bool.eq_false_iff.2 fun digit => ?_
  rw [(passed_of_isDigit digit).2] at ends
  cases ends

theorem DigitRun.with_tail (h : DigitRun before digits (left ++ u)) (closes : Closes v) :
    DigitRun before digits (left ++ v) := by
  refine ⟨h.filled, h.digits, h.starts, ?_⟩
  cases left with
  | nil => exact fun c head => isDigit_of_endsExpression (closes c head)
  | cons c left => exact h.ends

/-- No sign contains a terminator. -/
theorem StartsWithSign.with_tail (h : StartsWithSign kind (kind.symbol.toList ++ (left ++ u)))
    (closes : Closes v) : StartsWithSign kind (kind.symbol.toList ++ (left ++ v)) := by
  refine ⟨h.sign, List.prefix_append _ _, fun other sign ⟨rest, split⟩ => ?_⟩
  have goes : ∀ c ∈ other.symbol.toList, endsExpression c = false := fun c member =>
    (other.passed_of_isSign sign c member).2
  rw [← List.append_assoc] at split
  obtain ⟨more, within, -⟩ := split_of_closes closes goes split
  refine h.longest other sign ⟨more ++ u, ?_⟩
  rw [← List.append_assoc, ← within, List.append_assoc]

theorem Spelled.with_tail (h : Spelled before kind taken (left ++ u)) (closes : Closes v) :
    Spelled before kind taken (left ++ v) := by
  cases h with
  | number run value => exact .number (run.with_tail closes) value
  | sign starts => exact .sign (starts.with_tail closes)

end Split

/-- Outcomes of one body before two tails. -/
def EndsLike (body u v : List Char) (x y : Except SyntaxError Token) : Prop :=
  x = y ∨ (∃ c ∈ ['=', '&', '|'], body.getLast? = some c) ∧
    x = .error (.unexpectedChar (u.headD '\x00') (byteCount body)) ∧
    y = .error (.unexpectedChar (v.headD '\x00') (byteCount body))

section Tails

variable {before body left rest u v : List Char} {ts : List Token}
  {x : Except SyntaxError Token}

theorem Stops.with_tail (h : Stops before (left ++ u) x)
    (clear : ∀ c ∈ left, endsExpression c = false) (first : Closes u) (second : Closes v) :
    ∃ y, Stops before (left ++ v) y ∧ EndsLike (before ++ left) u v x y := by
  generalize here : left ++ u = text at h
  cases h with
  | finish ends =>
    subst here
    cases left with
    | nil => exact ⟨_, .finish second, .inl rfl⟩
    | cons c left =>
      have closing := ends c rfl
      rw [clear c List.mem_cons_self] at closing
      cases closing
  | tooLarge run value =>
    have passed : ∀ c ∈ _, endsExpression c = false := fun c member => (run.passed c member).2
    obtain ⟨more, rfl, rfl⟩ := split_of_closes first passed here.symm
    rw [List.append_assoc]
    exact ⟨_, .tooLarge (run.with_tail second) value, .inl rfl⟩
  | @lone c rest half alone =>
    obtain ⟨-, -, -, narrow, goes⟩ := plain_of_half half
    have passed : ∀ d ∈ [c], endsExpression d = false := List.forall_mem_singleton.2 goes
    obtain ⟨more, rfl, rfl⟩ := split_of_closes first passed here.symm
    -- only where nothing of the body follows does the fault tell what stands after the body
    cases more with
    | nil =>
      have other : v.head? ≠ some c := fun head => by
        rw [second c head] at goes
        cases goes
      have size : byteCount (before ++ [c]) = byteCount before + 1 := by simp [narrow]
      refine ⟨_, .lone half other, .inr ⟨⟨c, half, by simp⟩, ?_, ?_⟩⟩
      · rw [List.append_nil, size]
        rfl
      · rw [List.append_nil, size]
        rfl
    | cons d more => exact ⟨_, .lone half alone, .inl rfl⟩
  | @nothing c rest solid goes letter unknown =>
    have passed : ∀ d ∈ [c], endsExpression d = false := List.forall_mem_singleton.2 goes
    obtain ⟨more, rfl, rfl⟩ := split_of_closes first passed here.symm
    exact ⟨_, .nothing solid goes letter unknown, .inl rfl⟩

/-- Tokens do not depend on what follows the terminator. -/
theorem Laid.with_tail (h : Laid before (body ++ u) ts x)
    (clear : ∀ c ∈ body, endsExpression c = false) (first : Closes u) (second : Closes v) :
    ∃ y, Laid before (body ++ v) ts y ∧ EndsLike (before ++ body) u v x y := by
  generalize here : body ++ u = text at h
  induction h generalizing body with
  | @token before gap taken rest kind ts outcome gaps spelled _ ih =>
    have passed : ∀ c ∈ gap ++ taken, endsExpression c = false :=
      List.forall_mem_append.2 ⟨fun c member => (passed_of_isGap (gaps c member)).2,
        fun c member => (spelled.passed c member).2⟩
    rw [← List.append_assoc] at here
    obtain ⟨left, rfl, rfl⟩ := split_of_closes first passed here.symm
    obtain ⟨y, others, like⟩ := ih (List.forall_mem_append.1 clear).2 rfl
    refine ⟨y, ?_, by simpa using like⟩
    rw [List.append_assoc, List.append_assoc]
    exact .token gaps (spelled.with_tail second) others
  | @stop before gap rest outcome gaps stops =>
    have passed : ∀ c ∈ gap, endsExpression c = false := fun c member =>
      (passed_of_isGap (gaps c member)).2
    obtain ⟨left, rfl, rfl⟩ := split_of_closes first passed here.symm
    obtain ⟨y, other, like⟩ := stops.with_tail (List.forall_mem_append.1 clear).2 first second
    refine ⟨y, ?_, by simpa using like⟩
    rw [List.append_assoc]
    exact .stop gaps other

end Tails

section Reading

variable {body u v : String} {text : List Char}

/-- The body ends in half of a doubled sign. -/
def Dangles (body tail : String) : Prop :=
  (∃ c ∈ ['=', '&', '|'], body.toList.getLast? = some c) ∧
    parse (body ++ tail) = .error (.unexpectedChar (tail.toList.headD '\x00') body.utf8ByteSize)

theorem parse_with_tail (clear : ∀ c ∈ body.toList, endsExpression c = false)
    (first : Closes u.toList) (second : Closes v.toList) :
    parse (body ++ u) = parse (body ++ v) ∨ (Dangles body u ∧ Dangles body v) := by
  obtain ⟨ts, x, laid⟩ := exists_layout (body.toList ++ u.toList)
  obtain ⟨y, other, like⟩ := laid.with_tail clear first second
  rw [← String.toList_append] at laid other
  have alike : EndAlike x y := like.imp_right fun ⟨_, fault, other⟩ => ⟨_, _, fault, other⟩
  rcases parse_alike alike laid.gives other.gives with
    ⟨e, read, same⟩ | ⟨s, t, read, same, ⟨fault, other⟩ | ⟨rfl, -⟩⟩
  · exact .inl (read.trans same.symm)
  · rcases like with rfl | ⟨half, lone, alone⟩
    · rw [fault] at other
      cases other
      exact .inl (read.trans same.symm)
    · rw [List.nil_append, byteCount_toList] at lone alone
      rw [fault] at lone
      rw [other] at alone
      cases lone
      cases alone
      exact .inr ⟨⟨half, read⟩, half, same⟩
  · exact .inl (read.trans same.symm)

theorem not_endsExpression_of_mem {c : Char}
    (member : c ∈ text.takeWhile fun c => !endsExpression c) : endsExpression c = false := by
  simpa using List.mem_takeWhile_imp member

theorem closes_dropWhile (text : List Char) : Closes (text.dropWhile fun c => !endsExpression c) :=
  fun c head => by simpa using Text.eq_false_of_mem_head?_dropWhile c head

theorem exists_body (text : String) : ∃ body tail : String, text = body ++ tail ∧
    body = String.ofList (text.toList.takeWhile fun c => !endsExpression c) ∧
    (∀ c ∈ body.toList, endsExpression c = false) ∧ Closes tail.toList := by
  refine ⟨_, String.ofList (text.toList.dropWhile fun c => !endsExpression c), ?_, rfl, ?_, ?_⟩
  · rw [← String.ofList_append, List.takeWhile_append_dropWhile, String.ofList_toList]
  · rw [String.toList_ofList]
    exact fun c => not_endsExpression_of_mem
  · rw [String.toList_ofList]
    exact closes_dropWhile text.toList

theorem parse_of_body (text : String) (e : Expr) : parse text = .ok e ↔
    parse (String.ofList (text.toList.takeWhile fun c => !endsExpression c)) = .ok e := by
  obtain ⟨body, tail, split, same, clear, closes⟩ := exists_body text
  have alone : parse (body ++ "") = parse body := by rw [String.append_empty]
  rw [← same, split, ← alone]
  rcases parse_with_tail clear closes (v := "") nofun with read | ⟨⟨-, first⟩, -, second⟩
  · rw [read]
  · rw [first, second]
    exact ⟨nofun, nofun⟩

theorem parse_past_end {c : Char} (ends : endsExpression c = true) (text after other : String) :
    parse (text ++ String.singleton c ++ after) = parse (text ++ String.singleton c ++ other) := by
  obtain ⟨body, tail, rfl, -, clear, closes⟩ := exists_body text
  have closed (after : String) : Closes (tail ++ String.singleton c ++ after).toList := by
    intro d head
    cases here : tail.toList with
    | nil =>
      obtain rfl : c = d := by simpa [here] using head
      exact ends
    | cons e more => exact closes d (by simpa [here] using head)
  have next (after : String) :
      (tail ++ String.singleton c ++ after).toList.headD '\x00' = tail.toList.headD c := by
    cases here : tail.toList <;> simp [here]
  have assoc (after : String) : body ++ tail ++ String.singleton c ++ after =
      body ++ (tail ++ String.singleton c ++ after) := by simp only [String.append_assoc]
  rw [assoc, assoc]
  rcases parse_with_tail clear (closed after) (closed other) with read | ⟨⟨-, first⟩, -, second⟩
  · exact read
  · rw [first, second, next, next]

/-- The formula ends at the first terminator. -/
theorem formulaText_ok {text formula : String} (found : formulaText text = .ok formula) :
    ∃ tail : String, afterFormulaKey text.toList = some (formula ++ tail).toList ∧ formula ≠ "" ∧
      (∀ c ∈ formula.toList, endsExpression c = false) ∧ Closes tail.toList := by
  unfold formulaText at found
  split at found
  next => cases found
  next rest key =>
    simp only at found
    split at found
    next => cases found
    next filled =>
      cases found
      refine ⟨String.ofList (rest.dropWhile fun c => !endsExpression c), ?_, ?_, ?_, ?_⟩
      · rw [key, ← String.ofList_append, List.takeWhile_append_dropWhile, String.toList_ofList]
      · intro none
        simp [String.ofList_eq_empty_iff] at none
        simp [none] at filled
      · rw [String.toList_ofList]
        exact fun c => not_endsExpression_of_mem
      · rw [String.toList_ofList]
        exact closes_dropWhile rest

end Reading

/-- For every header with a formula: formula and rest of the header are read alike, but for the
character after half of a doubled sign, and text after a terminator has no part. -/
theorem formula_ends_with_expression :
    (∀ text formula, formulaText text = .ok formula → formula ≠ "" ∧
      ∃ front name tail : String, text = front ++ name ++ (formula ++ tail) ∧
        name.toLower = "plural=" ∧ afterFormulaKey text.toList = some (formula ++ tail).toList ∧
        (parse formula = parse (formula ++ tail) ∨ (Dangles formula "" ∧ Dangles formula tail))) ∧
    (∀ (text after other : String) (c : Char), endsExpression c = true →
      parse (text ++ String.singleton c ++ after) = parse (text ++ String.singleton c ++ other)) ∧
    ∀ (text : String) (e : Expr), parse text = .ok e ↔
      parse (String.ofList (text.toList.takeWhile fun c => !endsExpression c)) = .ok e := by
  refine ⟨fun text formula found => ?_, fun text after other c ends => ?_, parse_of_body⟩
  case refine_2 => exact parse_past_end ends text after other
  obtain ⟨tail, key, filled, clear, closes⟩ := formulaText_ok found
  obtain ⟨front, name, split, lower⟩ := afterKey_sound key
  have alone : parse (formula ++ "") = parse formula := by rw [String.append_empty]
  have read := parse_with_tail clear (u := "") nofun closes
  rw [alone] at read
  refine ⟨filled, String.ofList front, String.ofList name, tail, ?_, ?_, key, read⟩
  · apply String.toList_inj.1
    simpa using split
  · apply String.toList_inj.1
    rw [toList_toLower, String.toList_ofList, lower]

theorem formula_ends_with_expression_dangling :
    formulaText "Plural=n &;x" = .ok "n &" ∧
    (∃ front name tail : String, "Plural=n &;x" = front ++ name ++ ("n &" ++ tail) ∧
      name.toLower = "plural=" ∧ (parse "n &" = parse ("n &" ++ tail) ∨ Dangles "n &" tail)) ∧
    endsExpression ';' = true ∧ parse "n;x" = parse "n; y" ∧
    parse "n &" = .error (.unexpectedChar '\x00' 3) ∧
    parse "n &;x" = .error (.unexpectedChar ';' 3) := by
  have found : formulaText "Plural=n &;x" = .ok "n &" := by decide +kernel
  obtain ⟨within, past, -⟩ := formula_ends_with_expression
  obtain ⟨-, front, name, tail, split, lower, -, read⟩ := within _ _ found
  exact ⟨found, ⟨front, name, tail, split, lower, read.imp_right And.right⟩, rfl,
    past "n" "x" " y" ';' rfl, by decide +kernel, by decide +kernel⟩

end MessageCatalog.Plural
