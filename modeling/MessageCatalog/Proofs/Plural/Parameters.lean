import Mathlib.Data.List.TakeWhile
import MessageCatalog.Plural.Forms
import MessageCatalog.Proofs.Outcome
import MessageCatalog.Proofs.Plural.Alphabet
import MessageCatalog.Proofs.Text.Runs

/-! Both parameters of a header value are found in either order and any letter case. `nplurals`
contains `plural`, and expressions contain `n`, but no written expression contains `p`, so neither
search stops early. -/
namespace MessageCatalog.Plural

theorem toList_toLower (text : String) : text.toLower.toList = text.toList.map Char.toLower :=
  String.toList_map

section afterKey

variable {key passed text rest : List Char} {stands : Option Char → Bool} {before : Option Char}
  {k c : Char}

theorem afterKey_of_lower (same : passed.map Char.toLower = key)
    (accepted : stands before = true) :
    afterKey key stands before (passed ++ rest) = some rest := by
  have size : passed.length = key.length := by rw [← same, List.length_map]
  have here : startsWithKey key (passed ++ rest) = true := by
    rw [startsWithKey, ← size, List.take_left, same, beq_self_eq_true]
  rw [afterKey.eq_def]
  refine (if_pos (by rw [here, accepted]; rfl)).trans ?_
  rw [← size, List.drop_left]

theorem startsWithKey_append (le : key.length ≤ passed.length) :
    startsWithKey key (passed ++ rest) = ((passed.map Char.toLower).take key.length == key) := by
  rw [startsWithKey, List.take_append_of_le_length le, List.map_take]

theorem afterKey_cons (other : startsWithKey key (c :: rest) = false) :
    afterKey key stands before (c :: rest) = afterKey key stands (some c) rest := by
  rw [afterKey, other]
  rfl

theorem afterKey_append (other : ∀ d ∈ passed, d.toLower ≠ k) :
    afterKey (k :: key) stands before (passed ++ rest) =
      afterKey (k :: key) stands (passed.getLast?.or before) rest := by
  induction passed generalizing before with
  | nil => rfl
  | cons d passed ih =>
    obtain ⟨here, others⟩ := List.forall_mem_cons.1 other
    have last : passed.getLast?.or (some d) = (d :: passed).getLast?.or before := by
      rw [List.getLast?_cons]
      cases passed.getLast? <;> rfl
    exact (afterKey_cons (by simp [startsWithKey, here])).trans (last ▸ ih others)

/-- A search passes characters that cannot begin the key. -/
theorem afterKey_cons_append {first second : Char} (other : ∀ d ∈ passed, d.toLower ≠ second)
    (next : ∀ d ∈ rest.head?, d.toLower ≠ second) :
    ∃ last, afterKey (first :: second :: key) stands before (c :: (passed ++ rest)) =
      afterKey (first :: second :: key) stands (some last) rest := by
  induction passed generalizing before c with
  | nil =>
    refine ⟨c, afterKey_cons ?_⟩
    cases rest with
    | nil => simp [startsWithKey]
    | cons d rest => simp [startsWithKey, next d rfl]
  | cons d passed ih =>
    obtain ⟨here, others⟩ := List.forall_mem_cons.1 other
    obtain ⟨last, found⟩ := ih others
    exact ⟨last, (afterKey_cons (by simp [startsWithKey, here])).trans found⟩

theorem afterKey_sound (found : afterKey key stands before text = some rest) :
    ∃ front name, text = front ++ (name ++ rest) ∧ name.map Char.toLower = key := by
  fun_induction afterKey key stands before text with
  | case1 before text here =>
    cases found
    simp only [Bool.and_eq_true, startsWithKey, beq_iff_eq] at here
    exact ⟨[], text.take key.length, by simp, here.1⟩
  | case2 => cases found
  | case3 before c text _ ih =>
    obtain ⟨front, name, rfl, same⟩ := ih found
    exact ⟨c :: front, name, rfl, same⟩

end afterKey

section Found

variable {text : String} {rest : List Char} {forms : Nat} {e : Expr}

theorem parseFormCount_of_found
    (found : afterCountKey text.toList = some (Nat.toDigits 10 forms ++ rest))
    (stops : ∀ c ∈ rest.head?, c.isDigit = false) :
    parseFormCount text =
      if forms < UInt64.size then .ok (UInt64.ofNat forms)
      else .error (.invalidNumber (String.ofList (Nat.toDigits 10 forms))) := by
  have number : (Nat.toDigits 10 forms ++ rest).takeWhile Char.isDigit = Nat.toDigits 10 forms :=
    Text.takeWhile_append_of_stops (fun _ => isDigit_toDigits) stops
  have some : (Nat.toDigits 10 forms).isEmpty = false := by
    simp
  simp only [parseFormCount, found, number, some, Nat.ofDigitChars_ten_toDigits]
  rfl

theorem formulaText_of_found (found : afterFormulaKey text.toList = some (e.written ++ rest))
    (stops : ∀ c ∈ rest.head?, endsExpression c = true) :
    formulaText text = .ok e.render := by
  have whole : (e.written ++ rest).takeWhile (fun c => !endsExpression c) = e.written := by
    refine Text.takeWhile_append_of_stops (fun c member => ?_) fun c head => ?_
    · rw [(e.carried_written c member).endsExpression, Bool.not_false]
    · rw [stops c head, Bool.not_true]
  have some : e.written.isEmpty = false := by
    obtain ⟨front, last, ends, _⟩ := e.written_eq_concat
    simp [ends]
  simp only [formulaText, found, whole, some]
  rfl

theorem parseForms_of_found {more : List Char} (reads : parse e.render = .ok e)
    (count : afterCountKey text.toList = some (Nat.toDigits 10 forms ++ more))
    (digits : ∀ c ∈ more.head?, c.isDigit = false)
    (formula : afterFormulaKey text.toList = some (e.written ++ rest))
    (ends : ∀ c ∈ rest.head?, endsExpression c = true) :
    parseForms text =
      if forms < UInt64.size then .ok (UInt64.ofNat forms, e)
      else .error (.invalidNumber (String.ofList (Nat.toDigits 10 forms))) := by
  rw [parseForms, parseFormCount_of_found count digits, formulaText_of_found formula ends]
  split
  · exact bind_of_ok reads
  · rfl

end Found

def countName : List Char := ['n', 'p', 'l', 'u', 'r', 'a', 'l', 's']
def formulaName : List Char := ['p', 'l', 'u', 'r', 'a', 'l']

def countFirst (count formula gap last : List Char) (forms : Nat) (e : Expr) : List Char :=
  count ++ '=' :: (Nat.toDigits 10 forms ++ ';' :: (gap ++ (formula ++ '=' :: (e.written ++ last))))

def formulaFirst (count formula gap last : List Char) (forms : Nat) (e : Expr) : List Char :=
  formula ++ '=' :: (e.written ++ ';' :: (gap ++ (count ++ '=' :: (Nat.toDigits 10 forms ++ last))))

section Fields

variable {count formula gap last : List Char} {text : String} {forms : Nat} {e : Expr}

theorem key_of_lower {name key : List Char} (lower : name.map Char.toLower = key) :
    (name ++ ['=']).map Char.toLower = key ++ ['='] := by
  rw [List.map_append, lower]
  rfl

theorem toLower_ne_of_mem {name key : List Char} {k c : Char} (lower : name.map Char.toLower = key)
    (other : k ∉ key) (member : c ∈ name) : c.toLower ≠ k := by
  rintro rfl
  exact other (lower ▸ List.mem_map_of_mem member)

theorem toLower_ne_of_isDigit {c : Char} (digit : c.isDigit = true) : c.toLower ≠ 'p' := by
  rw [toLower_of_isDigit digit]
  rintro rfl
  cases digit

theorem toLower_ne_of_mem_written {c : Char} (member : c ∈ e.written) : c.toLower ≠ 'p' := by
  have signs : ∀ c ∈ Expr.signs, c.toLower ≠ 'p' := List.all_iff_forall_prop.1 (by decide)
  exact e.forall_written (fun _ => toLower_ne_of_isDigit) signs c member

theorem afterCountKey_countFirst (countKey : count.map Char.toLower = countName) :
    afterCountKey (countFirst count formula gap last forms e) =
      some (Nat.toDigits 10 forms ++ ';' :: (gap ++ (formula ++ '=' :: (e.written ++ last)))) := by
  rw [countFirst, List.append_cons]
  exact afterKey_of_lower (key_of_lower countKey) rfl

theorem afterFormulaKey_formulaFirst (formulaKey : formula.map Char.toLower = formulaName) :
    afterFormulaKey (formulaFirst count formula gap last forms e) =
      some (e.written ++ ';' :: (gap ++ (count ++ '=' :: (Nat.toDigits 10 forms ++ last)))) := by
  rw [formulaFirst, List.append_cons]
  exact afterKey_of_lower (key_of_lower formulaKey) rfl

/-- The `s` of `nplurals` keeps the search going, and no other `p` follows before the key. -/
theorem afterFormulaKey_countFirst (countKey : count.map Char.toLower = countName)
    (formulaKey : formula.map Char.toLower = formulaName) (space : gap = [] ∨ gap = [' ']) :
    afterFormulaKey (countFirst count formula gap last forms e) = some (e.written ++ last) := by
  obtain ⟨n, others, rfl, first, others⟩ := List.map_eq_cons_iff.1 countKey
  obtain ⟨p, tail, rfl, second, others⟩ := List.map_eq_cons_iff.1 others
  let passed := (tail ++ '=' :: Nat.toDigits 10 forms) ++ ';' :: gap
  have clear : ∀ c ∈ passed, c.toLower ≠ 'p' := by
    have name : ∀ c ∈ tail, c.toLower ≠ 'p' := fun c => toLower_ne_of_mem others (by decide)
    have digits : ∀ c ∈ Nat.toDigits 10 forms, c.toLower ≠ 'p' := fun c member =>
      toLower_ne_of_isDigit (isDigit_toDigits member)
    have space : ∀ c ∈ gap, c.toLower ≠ 'p' := by rcases space with rfl | rfl <;> simp
    simp only [passed, List.forall_mem_append, List.forall_mem_cons]
    exact ⟨⟨name, by decide, digits⟩, by decide, space⟩
  have apart : ((passed.getLast?.or (some p)).map Char.toLower != some 'n') = true := by
    rw [List.getLast?_append]
    rcases space with rfl | rfl <;> rfl
  have text : countFirst (n :: p :: tail) formula gap last forms e =
      n :: p :: (passed ++ ((formula ++ ['=']) ++ (e.written ++ last))) := by
    simp [countFirst, passed]
  have plurals (rest : List Char) : startsWithKey "plural=".toList (p :: (tail ++ rest)) = false := by
    have lower : (p :: tail).map Char.toLower = ['p', 'l', 'u', 'r', 'a', 'l', 's'] := by
      rw [List.map_cons, second, others]
    have size := (List.length_map Char.toLower).symm.trans (congrArg List.length lower)
    have room : "plural=".toList.length ≤ (p :: tail).length := by
      rw [size]
      decide
    rw [← List.cons_append, startsWithKey_append room, lower]
    decide
  rw [afterFormulaKey, text, afterKey_cons (by simp [startsWithKey, first]),
    afterKey_cons (by simpa [passed] using plurals _)]
  exact (afterKey_append clear).trans (afterKey_of_lower (key_of_lower formulaKey) apart)

/-- An `n` in the expression is not followed by `p`, so the search goes on. -/
theorem afterCountKey_formulaFirst (countKey : count.map Char.toLower = countName)
    (formulaKey : formula.map Char.toLower = formulaName) (space : gap = [] ∨ gap = [' ']) :
    afterCountKey (formulaFirst count formula gap last forms e) =
      some (Nat.toDigits 10 forms ++ last) := by
  obtain ⟨p, tail, rfl, first, others⟩ := List.map_eq_cons_iff.1 formulaKey
  have clear : ∀ c ∈ tail ++ '=' :: (e.written ++ ';' :: gap), c.toLower ≠ 'p' := by
    have name : ∀ c ∈ tail, c.toLower ≠ 'p' := fun c => toLower_ne_of_mem others (by decide)
    have formula : ∀ c ∈ e.written, c.toLower ≠ 'p' := fun c => toLower_ne_of_mem_written
    have space : ∀ c ∈ gap, c.toLower ≠ 'p' := by rcases space with rfl | rfl <;> simp
    simp only [List.forall_mem_append, List.forall_mem_cons]
    exact ⟨name, by decide, formula, by decide, space⟩
  have next : ∀ c ∈ ((count ++ ['=']) ++ (Nat.toDigits 10 forms ++ last)).head?,
      c.toLower ≠ 'p' := by
    obtain ⟨n, others, rfl, first, -⟩ := List.map_eq_cons_iff.1 countKey
    simp [first]
  have text : formulaFirst count (p :: tail) gap last forms e =
      p :: ((tail ++ '=' :: (e.written ++ ';' :: gap)) ++
        ((count ++ ['=']) ++ (Nat.toDigits 10 forms ++ last))) := by
    simp [formulaFirst]
  obtain ⟨before, goes⟩ := afterKey_cons_append clear next
  rw [afterCountKey, text]
  exact goes.trans (afterKey_of_lower (key_of_lower countKey) rfl)

theorem parseForms_of_fields (countKey : count.map Char.toLower = countName)
    (formulaKey : formula.map Char.toLower = formulaName) (space : gap = [] ∨ gap = [' '])
    (ends : last = [] ∨ last = [';']) (reads : parse e.render = .ok e)
    (same : text.toList = countFirst count formula gap last forms e ∨
      text.toList = formulaFirst count formula gap last forms e) :
    parseForms text =
      if forms < UInt64.size then .ok (UInt64.ofNat forms, e)
      else .error (.invalidNumber (String.ofList (Nat.toDigits 10 forms))) := by
  have digits : ∀ c ∈ last.head?, c.isDigit = false := by rcases ends with rfl | rfl <;> simp
  have semicolon : ∀ c ∈ last.head?, endsExpression c = true := by
    rcases ends with rfl | rfl <;> simp [endsExpression]
  rcases same with same | same
  · exact parseForms_of_found reads (same ▸ afterCountKey_countFirst countKey) (by simp)
      (same ▸ afterFormulaKey_countFirst countKey formulaKey space) semicolon
  · exact parseForms_of_found reads (same ▸ afterCountKey_formulaFirst countKey formulaKey space)
      digits (same ▸ afterFormulaKey_formulaFirst formulaKey) (by simp [endsExpression])

end Fields

/-- For either order, any casing of the names, an optional space and an optional final semicolon,
the count and every expression that survives rendering are read back. -/
theorem parseForms_written (forms : UInt64) (e : Expr) (reads : parse e.render = .ok e)
    (count formula gap last : String) (countKey : count.toLower = "nplurals")
    (formulaKey : formula.toLower = "plural") (space : gap = "" ∨ gap = " ")
    (ends : last = "" ∨ last = ";") :
    parseForms (count ++ "=" ++ toString forms ++ ";" ++ gap ++ formula ++ "=" ++ e.render ++ last) =
        .ok (forms, e) ∧
      parseForms (formula ++ "=" ++ e.render ++ ";" ++ gap ++ count ++ "=" ++ toString forms ++ last) =
        .ok (forms, e) := by
  have names {name key : String} (lower : name.toLower = key) :
      name.toList.map Char.toLower = key.toList := by
    rw [← lower, toList_toLower]
  have space : gap.toList = [] ∨ gap.toList = [' '] := space.imp (congrArg _) (congrArg _)
  have ends : last.toList = [] ∨ last.toList = [';'] := ends.imp (congrArg _) (congrArg _)
  have digits : (toString forms).toList = Nat.toDigits 10 forms.toNat := Nat.toList_repr
  have both (text : String) (same : text.toList =
        countFirst count.toList formula.toList gap.toList last.toList forms.toNat e ∨
      text.toList =
        formulaFirst count.toList formula.toList gap.toList last.toList forms.toNat e) :
      parseForms text = .ok (forms, e) := by
    have read := parseForms_of_fields (names countKey) (names formulaKey) space ends reads same
    rwa [if_pos forms.toNat_lt_size, UInt64.ofNat_toNat] at read
  constructor
  · refine both _ (.inl ?_)
    simp [countFirst, digits, Expr.render]
  · refine both _ (.inr ?_)
    simp [formulaFirst, digits, Expr.render]

theorem parseForms_written_mixedCase :
    let e := Expr.choice (.binary .eq .count (.number 1)) (.number 0) (.number 1)
    parse e.render = .ok e ∧ "NPlurals".toLower = "nplurals" ∧ "PLURAL".toLower = "plural" ∧
      parseForms "NPlurals=2;PLURAL=((n == 1) ? 0 : 1);" = .ok (2, e) ∧
      parseForms "PLURAL=((n == 1) ? 0 : 1);NPlurals=2;" = .ok (2, e) := by
  intro e
  have reads : parse e.render = .ok e := by decide +kernel
  have lower : "NPlurals".toLower = "nplurals" ∧ "PLURAL".toLower = "plural" := by decide +kernel
  have both := parseForms_written 2 e reads "NPlurals" "PLURAL" "" ";" lower.1 lower.2 (.inl rfl)
    (.inr rfl)
  have shown : e.render = "((n == 1) ? 0 : 1)" := by decide +kernel
  rw [shown] at both
  exact ⟨reads, lower.1, lower.2, both⟩

end MessageCatalog.Plural
