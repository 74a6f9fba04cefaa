import MessageCatalog.Proofs.Plural.Height
import MessageCatalog.Proofs.Plural.OneCall

/-! Simultaneously active calls of the reader. The end token never runs out, so levels and not the
text bound them; one call more than levels may be active, and fails. -/
namespace MessageCatalog.Plural

/-- The reader with a bounded number of active calls; `beyond` answers the others. -/
def readWithin (beyond : Readings) : (budget : Nat) → Readings
  | 0 => beyond
  | budget + 1 => readWith (readWithin beyond budget)

def Reader.ended (r : Reader) : Except Stop (Expr × Place) → Except SyntaxError Expr
  | .error stop => .error stop.cause
  | .ok (e, p) =>
    match p.expect r.levels .finish .finish with
    | .ok _ => .ok e
    | .error stop => .error stop.cause

def parseWithin (beyond : Readings) (budget : Nat) (text : String) : Except SyntaxError Expr := do
  let r ← Reader.ofText text.toList
  r.ended (readWithin beyond budget r.levels 0 r.place)

section Budget

variable {beyond : Readings} {budget levels power : Nat} {p : Place} {text : String} {r : Reader}

theorem Reader.whole_eq (r : Reader) : r.whole = r.ended (readExpr r.levels 0 r.place) := by
  unfold whole expression ended
  cases readExpr r.levels 0 r.place with
  | error stop => rfl
  | ok result => rfl

/-- With more calls than levels the budget is never exceeded. -/
theorem readWithin_eq (enough : levels < budget) :
    readWithin beyond budget levels power p = readExpr levels power p := by
  induction budget generalizing levels power p with
  | zero => exact absurd enough (Nat.not_lt_zero levels)
  | succ budget ih =>
    rw [readWithin, ← readWith_readExpr]
    have same : Follows Eq Eq (fun _ => False) (readWith (readWithin beyond budget) levels power p)
        (readWith readExpr levels power p) := by
      refine (outlasts_refl levels).follows_readWith (fun fewer lt power p q along => ?_) power rfl
      rw [ih (Nat.lt_of_lt_of_le lt (Nat.le_of_lt_succ enough)), along]
      exact .refl _
    rcases same.lost_or_eq with ⟨_, none, _⟩ | same
    · exact none.elim
    · exact same

theorem parseWithin_eq (enough : maxNesting < budget) :
    parseWithin beyond budget text = parse text := by
  unfold parseWithin parse
  cases first : Reader.ofText text.toList with
  | error cause => rfl
  | ok r =>
    rw [← Reader.levels_ofText first] at enough
    change r.ended _ = r.whole
    rw [readWithin_eq enough, r.whole_eq]

/-- A reading exhausts the budget or comes out as without it. -/
theorem follows_readWithin (stop : Stop) :
    Follows Eq Eq (· = stop) (readWithin (fun _ _ _ => .error stop) budget levels power p)
      (readExpr levels power p) := by
  induction budget generalizing levels power p with
  | zero => exact .lost rfl
  | succ budget ih =>
    rw [readWithin, ← readWith_readExpr]
    exact (outlasts_refl levels).follows_readWith (fun _ _ _ _ _ along => along ▸ ih) power rfl

end Budget

structure Activation where
  levels : Nat
  power : Nat
  place : Place
  deriving DecidableEq, Repr

namespace Activation

def replaced (d : Activation) (outcome : Except Stop (Expr × Place)) : Readings :=
  fun levels power p =>
    if (⟨levels, power, p⟩ : Activation) = d then outcome else readExpr levels power p

/-- Whenever the inner call stops, so does the outer one. -/
def Makes (c d : Activation) : Prop :=
  ∀ stop, readWith (d.replaced (.error stop)) c.levels c.power c.place = .error stop

variable {c d : Activation} {nested : List Activation}

theorem replaced_self (d : Activation) :
    d.replaced (readExpr d.levels d.power d.place) = readExpr := by
  funext levels power p
  unfold replaced
  split
  next same => rw [← same]
  next => rfl

theorem follows_replaced {readings : Readings} {stop : Stop}
    (here : readings d.levels d.power d.place = .error stop)
    (elsewhere : ∀ levels power p,
      Follows Eq Eq (· = stop) (readings levels power p) (readExpr levels power p))
    (outcome : Except Stop (Expr × Place)) :
    Follows Eq Eq (· = stop) (readWith readings c.levels c.power c.place)
      (readWith (d.replaced outcome) c.levels c.power c.place) := by
  refine (outlasts_refl c.levels).follows_readWith (fun levels _ power p q along => ?_) c.power rfl
  subst along
  change Follows _ _ _ _ (d.replaced outcome levels power p)
  unfold replaced
  split
  next same =>
    cases same
    have stops : readings levels power p = .error stop := here
    rw [stops]
    exact .lost rfl
  next => exact elsewhere levels power p

/-- A call that is never made is irrelevant. -/
theorem readWith_replaced (h : ¬ c.Makes d) (outcome : Except Stop (Expr × Place)) :
    readWith (d.replaced outcome) c.levels c.power c.place = readExpr c.levels c.power c.place := by
  obtain ⟨stop, goesOn⟩ := not_forall.1 h
  have elsewhere (levels power : Nat) (p : Place) : Follows Eq Eq (· = stop)
      (d.replaced (.error stop) levels power p) (readExpr levels power p) := by
    unfold replaced
    split
    · exact .lost rfl
    · exact .refl _
  have same (outcome : Except Stop (Expr × Place)) :
      readWith (d.replaced (.error stop)) c.levels c.power c.place =
        readWith (d.replaced outcome) c.levels c.power c.place := by
    rcases (follows_replaced (if_pos rfl) elsewhere outcome).lost_or_eq with ⟨_, rfl, stops⟩ | same
    · exact absurd stops goesOn
    · exact same
  rw [← same outcome, same (readExpr d.levels d.power d.place), replaced_self, readWith_readExpr]

/-- Calls that make one another exhaust a budget of their number. -/
theorem error_of_chain {budget : Nat} (chain : (c :: nested).IsChain Makes)
    (long : budget ≤ nested.length) (stop : Stop) :
    readWithin (fun _ _ _ => .error stop) budget c.levels c.power c.place = .error stop := by
  induction budget generalizing c nested with
  | zero => rfl
  | succ budget ih =>
    cases nested with
    | nil => cases long
    | cons d nested =>
      obtain ⟨makes, chain⟩ := List.isChain_cons_cons.1 chain
      have above := ih chain (Nat.le_of_succ_le_succ long)
      have follows := follows_replaced (c := c) above
        (fun _ _ _ => follows_readWithin stop) (.error stop)
      rcases follows.lost_or_eq with ⟨_, rfl, stops⟩ | same
      · exact stops
      · exact same.trans (makes stop)

/-- Below a call, active calls are bounded by its levels. -/
theorem length_le_of_chain (chain : (c :: nested).IsChain Makes) : nested.length ≤ c.levels := by
  refine Nat.not_lt.1 fun long => ?_
  have fails (stop : Stop) : readExpr c.levels c.power c.place = .error stop :=
    (readWithin_eq (Nat.lt_succ_self _)).symm.trans (error_of_chain chain long stop)
  have different := (fails ⟨.insideCharacter 0, c.place, 0⟩).symm.trans
    (fails ⟨.insideCharacter 0, c.place, 1⟩)
  cases different

theorem makes_of_not {levels power : Nat} {p m : Place} (kind : p.current.kind = .not)
    (step : p.Steps m) : (⟨levels + 1, power, p⟩ : Activation).Makes ⟨levels, 80, m⟩ := by
  intro stop
  have fails : replaced ⟨levels, 80, m⟩ (.error stop) levels 80 m = .error stop := if_pos rfl
  change readWith _ (levels + 1) power p = .error stop
  rw [readWith, bind_of_ok (Place.advance_of_steps step)]
  simp only [readOperand, kind]
  exact bind_of_error (bind_of_error fails)

theorem exists_chain_of_negations {times : Nat} (levels power : Nat) {p q : Place}
    (reads : p.Reads (List.replicate times .not) q) :
    ∃ nested, nested.length = times ∧
      ((⟨levels + times, power, p⟩ : Activation) :: nested).IsChain Makes := by
  induction times generalizing power p with
  | zero => exact ⟨[], rfl, .singleton _⟩
  | succ times ih =>
    obtain ⟨kind, m, step, reads⟩ := Place.reads_cons_iff.1 reads
    obtain ⟨nested, length, chain⟩ := ih 80 reads
    refine ⟨⟨levels + times, 80, m⟩ :: nested, congrArg (· + 1) length, ?_⟩
    exact .cons_cons (makes_of_not kind step) chain

end Activation

/-- A chain of active calls, from the whole expression inwards. -/
def ActiveIn (text : String) (calls : List Activation) : Prop :=
  ∃ r nested, Reader.ofText text.toList = .ok r ∧ calls = ⟨r.levels, 0, r.place⟩ :: nested ∧
    calls.IsChain Activation.Makes

/-- A budget below the number of active calls is exhausted. -/
theorem parseWithin_of_active {text : String} {calls : List Activation} {budget : Nat}
    (active : ActiveIn text calls) (short : budget < calls.length) (stop : Stop) :
    parseWithin (fun _ _ _ => .error stop) budget text = .error stop.cause := by
  obtain ⟨r, nested, first, rfl, chain⟩ := active
  have fails := Activation.error_of_chain chain (Nat.le_of_lt_succ short) stop
  unfold parseWithin
  rw [first]
  change r.ended (readWithin _ budget r.levels 0 r.place) = _
  rw [show readWithin _ budget r.levels 0 r.place = .error stop from fails]
  rfl

/-- Each negation keeps a call active. -/
theorem exists_active_negations {times : Nat} (few : times ≤ maxNesting) :
    ∃ calls, ActiveIn (String.ofList (negatedText times)) calls ∧ calls.length = times + 1 := by
  have spelled := spells_negatedText times []
  rw [List.append_nil] at spelled
  obtain ⟨p, q, first, reads, -⟩ := spelled.exists_reads
  obtain ⟨m, reads, -⟩ := Place.reads_append_iff.1 reads
  obtain ⟨nested, length, chain⟩ :=
    Activation.exists_chain_of_negations (maxNesting - times) 0 reads
  rw [Nat.sub_add_cancel few] at chain
  refine ⟨⟨maxNesting, 0, p⟩ :: nested, ⟨⟨p, maxNesting⟩, nested, ?_, rfl, chain⟩, ?_⟩
  · rw [String.toList_ofList, Reader.ofText, first]
  · rw [List.length_cons, length]

/-- At most 257 calls are active, for every text, and a budget of 257 changes no result. -/
theorem activeCalls_within_limit (text : String) :
    (∀ calls, ActiveIn text calls → calls.length ≤ 257) ∧
    ∀ beyond budget, 257 ≤ budget → parseWithin beyond budget text = parse text := by
  refine ⟨?_, fun beyond budget enough => parseWithin_eq enough⟩
  rintro calls ⟨r, nested, first, rfl, chain⟩
  have bound := Activation.length_le_of_chain chain
  rw [Reader.levels_ofText first] at bound
  exact Nat.succ_le_succ bound

theorem activeCalls_within_limit_negations :
    (∃ calls, ActiveIn (String.ofList (negatedText 256)) calls ∧ calls.length = 257 ∧
      calls.length ≤ 257) ∧
    257 ≤ 257 ∧ parseWithin (fun _ _ p => .ok (.count, p)) 257 (String.ofList (negatedText 256)) =
      parse (String.ofList (negatedText 256)) := by
  have ⟨bound, same⟩ := activeCalls_within_limit (String.ofList (negatedText 256))
  obtain ⟨calls, active, length⟩ := exists_active_negations (Nat.le_refl 256)
  exact ⟨⟨calls, active, length, bound calls active⟩, Nat.le_refl 257, same _ 257 (Nat.le_refl 257)⟩

/-- The bound is attained: some text exhausts a budget of one less. -/
theorem budget_falls_short : ∃ text, ∀ stop,
    parseWithin (fun _ _ _ => .error stop) 256 text = .error stop.cause := by
  obtain ⟨calls, active, length⟩ := exists_active_negations (Nat.le_refl 256)
  exact ⟨_, parseWithin_of_active active (length ▸ Nat.lt_succ_self 256)⟩

end MessageCatalog.Plural
