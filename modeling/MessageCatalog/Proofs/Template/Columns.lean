import MessageCatalog.Proofs.Template.Wrapping

/-! Line breaks and widths of wrapped texts. Lines end after spaces, tabs and line feeds, fit into
80 columns unless unbreakable, and end early only where the next unbreakable part does not fit. -/
namespace MessageCatalog.Template

open Text

def breaksAfter (c : Char) : Bool := c == ' ' || c == '\t' || c == '\n'

/-- What one quoted line and the lines after it stand for. -/
structure Wraps (part : List Char) (later : List (List Char)) : Prop where
  filled : part ≠ []
  line : IsLine (Quoted.between (Quoted.encode part))
  width : (∃ c ∈ part.dropLast, breaksAfter c = true) →
    (Quoted.between (Quoted.encode part)).length ≤ 80
  feeds : '\n' ∉ part.dropLast
  ending : later ≠ [] → ∃ c, part.getLast? = some c ∧ breaksAfter c = true
  full : later ≠ [] → part.getLast? ≠ some '\n' →
    77 ≤ (Quoted.encode part).length +
      (Quoted.encode (later.flatten.takeWhile fun c => !breaksAfter c)).length

/-- The halves of the current line; only the first ends where a line may. -/
structure AtHand (closed opened : List Char) : Prop where
  feeds : '\n' ∉ closed
  ending : ∀ c ∈ closed.getLast?, breaksAfter c = true
  solid : ∀ c ∈ opened, breaksAfter c = false
  room : closed ≠ [] → (Quoted.encode closed).length + (Quoted.encode opened).length < 77

theorem length_between (text : List Char) : (Quoted.between text).length = text.length + 2 := by
  simp [Quoted.between]

theorem length_encodeChar_le (c : Char) : (Quoted.encodeChar c).length ≤ 2 := by
  rcases Quoted.encodeChar_cases c with ⟨plain, -, -⟩ | ⟨sign, pair⟩
  · simp [plain]
  · simp [pair]

theorem encode_inj {a b : List Char} (same : Quoted.encode a = Quoted.encode b) : a = b := by
  have read := congrArg Quoted.decode same
  rw [Quoted.decode_encode, Quoted.decode_encode] at read
  exact Option.some.inj read

theorem map_encode_inj {as bs : List (List Char)}
    (same : as.map Quoted.encode = bs.map Quoted.encode) : as = bs :=
  (List.map_inj_right fun _ _ => encode_inj).1 same

theorem flatten_of_pieces {closed opened text : List Char} {parts : List (List Char)}
    (cut : pieces (Quoted.encode closed) (Quoted.encode opened) text = parts.map Quoted.encode) :
    parts.flatten = closed ++ opened ++ text := by
  obtain ⟨others, same, flat⟩ := parts_of_pieces closed opened text
  rw [map_encode_inj (cut.symm.trans same), flat]

namespace AtHand

variable {closed opened : List Char}

theorem start (h : ∀ c ∈ opened, breaksAfter c = false) : AtHand [] opened where
  feeds := List.not_mem_nil
  ending := by simp
  solid := h
  room := fun filled => absurd rfl filled

theorem feed_notMem (h : AtHand closed opened) : '\n' ∉ closed ++ opened := by
  rw [List.mem_append, not_or]
  refine ⟨h.feeds, fun member => ?_⟩
  have solid := h.solid '\n' member
  cases solid

/-- A breakable first half leaves room in the line. -/
theorem length_lt (h : AtHand closed opened)
    (broken : ∃ c ∈ closed ++ opened, breaksAfter c = true) :
    (Quoted.encode closed).length + (Quoted.encode opened).length < 77 := by
  apply h.room
  rintro rfl
  obtain ⟨c, member, breaks⟩ := broken
  rw [List.nil_append] at member
  rw [h.solid c member] at breaks
  cases breaks

theorem wraps_last (h : AtHand closed opened) (filled : closed ++ opened ≠ []) :
    Wraps (closed ++ opened) [] where
  filled := filled
  line := isLine_between _
  width := by
    rintro ⟨c, member, breaks⟩
    have room := h.length_lt ⟨c, (List.dropLast_sublist _).mem member, breaks⟩
    rw [length_between, Quoted.encode_append, List.length_append]
    omega
  feeds := fun member => h.feed_notMem ((List.dropLast_sublist _).mem member)
  ending := fun more => absurd rfl more
  full := fun more => absurd rfl more

/-- The current line closed after a character that may end it. -/
theorem wraps_concat (h : AtHand closed opened) {c : Char} (breaks : breaksAfter c = true)
    (full : c ≠ '\n' → 77 ≤ (Quoted.encode (closed ++ opened ++ [c])).length)
    (later : List (List Char)) : Wraps (closed ++ opened ++ [c]) later where
  filled := List.append_ne_nil_of_right_ne_nil _ (List.cons_ne_nil c [])
  line := isLine_between _
  width := by
    rw [List.dropLast_concat]
    intro broken
    have room := h.length_lt broken
    have size := length_encodeChar_le c
    rw [length_between, Quoted.encode_concat, Quoted.encode_append, List.length_append,
      List.length_append]
    omega
  feeds := by
    rw [List.dropLast_concat]
    exact h.feed_notMem
  ending := fun _ => ⟨c, by simp, breaks⟩
  full := by
    intro _ other
    have filled := full (by simpa using other)
    omega

theorem concat_closed (h : AtHand closed opened) {c : Char} (other : c ≠ '\n')
    (breaks : breaksAfter c = true)
    (room : (Quoted.encode (closed ++ opened ++ [c])).length < 77) :
    AtHand (closed ++ opened ++ [c]) [] where
  feeds := by
    rw [List.mem_append, not_or]
    exact ⟨h.feed_notMem, by simpa using other.symm⟩
  ending := by simpa using breaks
  solid := List.forall_mem_nil _
  room := fun _ => room

/-- The first half closed, where an unbreakable character fills the line. -/
theorem wraps_closed (h : AtHand closed opened) {c : Char} {rest : List Char}
    (solid : breaksAfter c = false) (filled : closed ≠ [])
    (full : 77 ≤ (Quoted.encode closed).length + (Quoted.encode (opened ++ [c])).length)
    {later : List (List Char)} (flat : later.flatten = opened ++ [c] ++ rest) :
    Wraps closed later where
  filled := filled
  line := isLine_between _
  width := by
    intro _
    have room := h.room filled
    rw [length_between]
    omega
  feeds := fun member => h.feeds ((List.dropLast_sublist _).mem member)
  ending := by
    intro _
    have last := List.getLast?_eq_some_getLast filled
    exact ⟨_, last, h.ending _ last⟩
  full := by
    intro _ _
    -- what was opened is part of what stands before the next place to break
    have unbroken : ∀ d ∈ opened ++ [c], (!breaksAfter d) = true := by
      intro d member
      rcases List.mem_append.1 member with before | last
      · simp [h.solid d before]
      · simp [List.mem_singleton.1 last, solid]
    rw [flat, List.takeWhile_append_of_pos unbroken, Quoted.encode_append, List.length_append]
    omega

end AtHand

/-- One more character ends the current line or extends one of its halves. -/
theorem pieces_encode_cons (closed opened : List Char) (c : Char) (rest : List Char) :
    pieces (Quoted.encode closed) (Quoted.encode opened) (c :: rest) =
      if c = '\n' then
        Quoted.encode (closed ++ opened ++ [c]) ::
          pieces (Quoted.encode []) (Quoted.encode []) rest
      else if breaksAfter c then
        if 77 ≤ (Quoted.encode (closed ++ opened ++ [c])).length then
          Quoted.encode (closed ++ opened ++ [c]) ::
            pieces (Quoted.encode []) (Quoted.encode []) rest
        else pieces (Quoted.encode (closed ++ opened ++ [c])) (Quoted.encode []) rest
      else if closed ≠ [] ∧
          77 ≤ (Quoted.encode closed).length + (Quoted.encode (opened ++ [c])).length then
        Quoted.encode closed :: pieces (Quoted.encode []) (Quoted.encode (opened ++ [c])) rest
      else pieces (Quoted.encode closed) (Quoted.encode (opened ++ [c])) rest := by
  rw [pieces, ← Quoted.encode_append, ← Quoted.encode_singleton, ← Quoted.encode_append,
    ← Quoted.encode_append]
  by_cases feed : c = '\n'
  · rw [if_pos feed, if_pos feed]
    rfl
  · have same : breaksAfter c = (c == ' ' || c == '\t') := by simp [breaksAfter, feed]
    rw [if_neg feed, if_neg feed, ← same]
    have nothing : Quoted.encode [] = [] := rfl
    cases breaks : breaksAfter c with
    | true => simp [wrapColumn, Quoted.encode_eq_nil_iff, nothing]
    | false => simp [wrapColumn, Quoted.encode_eq_nil_iff, nothing]

theorem wraps_of_pieces {closed opened text : List Char} {parts : List (List Char)}
    (hand : AtHand closed opened)
    (cut : pieces (Quoted.encode closed) (Quoted.encode opened) text = parts.map Quoted.encode)
    {part : List Char} {later : List (List Char)} (line : part :: later <:+ parts) :
    Wraps part later := by
  induction text generalizing closed opened parts with
  | nil =>
    rw [pieces, ← Quoted.encode_append] at cut
    by_cases empty : closed ++ opened = []
    · rw [empty] at cut
      have none : parts = [] := List.map_eq_nil_iff.1 cut.symm
      rw [none] at line
      simp at line
    · have filled := mt Quoted.encode_eq_nil_iff.1 empty
      have one : [closed ++ opened].map Quoted.encode = parts.map Quoted.encode := by
        rw [← cut]
        simp [filled]
      rw [← map_encode_inj one] at line
      obtain ⟨rfl, rfl⟩ : part = closed ++ opened ∧ later = [] := by
        simpa [List.suffix_cons_iff] using line
      exact hand.wraps_last empty
  | cons c rest ih =>
    -- a line that is closed here comes first, and the others are cut from what was left open
    have closes {a b : List Char}
        (ends : Quoted.encode a :: pieces (Quoted.encode []) (Quoted.encode b) rest =
          parts.map Quoted.encode)
        (solid : ∀ d ∈ b, breaksAfter d = false)
        (wraps : ∀ others : List (List Char), others.flatten = b ++ rest → Wraps a others) :
        Wraps part later := by
      obtain ⟨first, others, rfl, same, more⟩ := List.map_eq_cons_iff.1 ends.symm
      rw [encode_inj same] at line
      rcases List.suffix_cons_iff.1 line with whole | inside
      · obtain ⟨rfl, rfl⟩ := List.cons.inj whole
        exact wraps later (flatten_of_pieces more.symm)
      · exact ih (AtHand.start solid) more.symm inside
    rw [pieces_encode_cons] at cut
    split at cut
    next feed =>
      refine closes cut (List.forall_mem_nil _) fun others _ => ?_
      exact hand.wraps_concat (by simp [feed, breaksAfter]) (fun other => absurd feed other) others
    next other =>
      split at cut
      next breaks =>
        split at cut
        next full =>
          refine closes cut (List.forall_mem_nil _) fun others _ => ?_
          exact hand.wraps_concat breaks (fun _ => full) others
        next room =>
          refine ih ?_ cut line
          exact hand.concat_closed other breaks (Nat.lt_of_not_le room)
      next solid =>
        have plain : breaksAfter c = false := by simpa using solid
        have unbroken := List.forall_mem_append.2 ⟨hand.solid, List.forall_mem_singleton.2 plain⟩
        split at cut
        next full =>
          refine closes cut unbroken fun others flat => ?_
          exact hand.wraps_closed plain full.1 full.2 flat
        next room =>
          refine ih ?_ cut line
          exact { hand with
            solid := unbroken
            room := fun filled => Nat.lt_of_not_le fun full => room ⟨filled, full⟩ }

/-- A tab that is written where 76 characters stand makes the widest line that has a place to break. -/
example :
    let text := 'a' :: ' ' :: List.replicate 74 'x' ++ ['\t', 'b']
    (pieces [] [] text).map (fun piece => (Quoted.between piece).length) = [80, 3] := by
  decide +kernel

/-- For every keyword and text: the form written, the widths of its lines, and their ends. -/
theorem columns_of_writeKeyword (keyword text : String) :
    let value := Quoted.encode text.toList
    let written := (writeKeyword keyword text).toList
    if keyword.length + value.length < 77 ∧ '\n' ∉ text.toList then
      ∃ line, written = unlines [line] ∧ line = keyword.toList ++ ' ' :: Quoted.between value ∧
        line.length ≤ 79
    else
      ∃ parts : List (List Char),
        written = unlines ((keyword.toList ++ ' ' :: Quoted.between []) ::
          parts.map fun part => Quoted.between (Quoted.encode part)) ∧
        parts.flatten = text.toList ∧
        ∀ part later, part :: later <:+ parts → Wraps part later := by
  intro value written
  have lines : written = unlines (keywordLines keyword.toList text.toList) := by
    simp only [written, writeKeyword, String.toList_ofList]
  have short : fitsOneLine keyword.toList text.toList = true ↔
      keyword.length + value.length < 77 ∧ '\n' ∉ text.toList := by
    rw [fitsOneLine, Bool.and_eq_true, decide_eq_true_iff, String.length_toList, wrapColumn]
    simp [value]
  split
  next fits =>
    rw [keywordLines, if_pos (short.2 fits)] at lines
    refine ⟨keyword.toList ++ ' ' :: Quoted.between value, lines, rfl, ?_⟩
    have room := fits.1
    rw [List.length_append, List.length_cons, length_between, String.length_toList]
    omega
  next wide =>
    rw [keywordLines, if_neg (mt short.1 wide)] at lines
    obtain ⟨parts, cut, flat⟩ := parts_of_text text.toList
    refine ⟨parts, ?_, flat, ?_⟩
    · rw [lines, cut, List.map_map]
      rfl
    · intro part later line
      exact wraps_of_pieces (AtHand.start (List.forall_mem_nil _)) cut line

end MessageCatalog.Template
