import DocQuery.Filter.Like

/-!
# What a LIKE pattern matches

`Like.Matches` says what a pattern means by itself: the text can be cut so that it follows the pattern, with any run of
characters for each `%`. `Regex.Finds` says what a regular expression means, for expressions of characters, runs of any
characters and anchors. `Like.finds_pattern_iff` is the agreement of the two: the regular expression of a pattern is
found in exactly those texts, of one line, that the pattern matches.

A pattern becomes the list of its elements character by character, and the `%` at its ends become missing anchors. So
the argument has two parts: what the elements of a pattern match in the middle of a text (`Like.matchesAt_elements`),
and what an anchor or its absence allows on either side (`Like.exists_frame`).
-/

namespace DocQuery

/-! ## Regular expressions -/

namespace Regex

/-- One element of a regular expression: a character, any run of characters of a line, or an end of the subject. -/
inductive Element where
  | char (c : Char)
  | run
  | start
  | stop
deriving DecidableEq, Repr

/-- The characters that do not stand for themselves. -/
def isSpecial (c : Char) : Bool := "\\.+*?()|[]\x7b\x7d^$".toList.contains c

/-- The elements of a regular expression. A backslash is read in front of a character that is no letter or digit, and
means that character; any other special character is read as an anchor or as part of `.*`, and nowhere else. -/
def parse? : List Char → Option (List Element)
  | [] => some []
  | '\\' :: c :: rest => if c.isAlphanum then none else (parse? rest).map (.char c :: ·)
  | '.' :: '*' :: rest => (parse? rest).map (.run :: ·)
  | '^' :: rest => (parse? rest).map (.start :: ·)
  | '$' :: rest => (parse? rest).map (.stop :: ·)
  | c :: rest => if isSpecial c then none else (parse? rest).map (.char c :: ·)

/-- The elements match at the place between the two parts of a subject. -/
inductive MatchesAt : List Element → List Char → List Char → Prop
  | nil (left right : List Char) : MatchesAt [] left right
  | char {elements : List Element} {left right : List Char} (c : Char) (h : MatchesAt elements (left ++ [c]) right) :
      MatchesAt (.char c :: elements) left (c :: right)
  | run {elements : List Element} {left right : List Char} (cs : List Char) (hline : '\n' ∉ cs)
      (h : MatchesAt elements (left ++ cs) right) : MatchesAt (.run :: elements) left (cs ++ right)
  | start {elements : List Element} {right : List Char} (h : MatchesAt elements [] right) :
      MatchesAt (.start :: elements) [] right
  | stop {elements : List Element} {left : List Char} (h : MatchesAt elements left []) :
      MatchesAt (.stop :: elements) left []

/-- The regular expression can be read, and matches somewhere in the subject. -/
def Finds (regex subject : String) : Prop :=
  ∃ elements, parse? regex.toList = some elements ∧
    ∃ left right, subject.toList = left ++ right ∧ MatchesAt elements left right

variable {elements : List Element} {left right : List Char}

theorem matchesAt_opening {isOpen : Bool} :
    MatchesAt ((if isOpen then [] else [.start]) ++ elements) left right ↔
      (isOpen = false → left = []) ∧ MatchesAt elements left right := by
  cases isOpen with
  | true => simp
  | false =>
    constructor
    · intro h
      cases h with
      | start h => exact ⟨fun _ => rfl, h⟩
    · rintro ⟨hleft, h⟩
      obtain rfl := hleft rfl
      exact .start h

theorem matchesAt_closing {isOpen : Bool} :
    MatchesAt (if isOpen then [] else [.stop]) left right ↔ (isOpen = false → right = []) := by
  cases isOpen with
  | true => simp [MatchesAt.nil]
  | false =>
    constructor
    · intro h _
      cases h
      rfl
    · intro hright
      obtain rfl := hright rfl
      exact .stop (.nil _ _)

end Regex

namespace Like

open Regex

/-! ## The meaning of a pattern -/

/-- The text can be cut to follow the pattern: `%` stands for any run of characters, and any other character for
itself. -/
inductive Matches : List Char → List Char → Prop
  | nil : Matches [] []
  | any {raw text : List Char} (cs : List Char) (h : Matches raw text) : Matches ('%' :: raw) (cs ++ text)
  | char {raw text : List Char} {c : Char} (hc : c ≠ '%') (h : Matches raw text) : Matches (c :: raw) (c :: text)

variable {raw text : List Char}

theorem matches_nil : Matches [] text ↔ text = [] := by
  constructor
  · intro h
    cases h
    rfl
  · rintro rfl
    exact .nil

theorem matches_any : Matches ['%'] text := by
  simpa using Matches.any text .nil

/-- A pattern in two parts matches a text in two parts. -/
theorem matches_append {raw' : List Char} :
    Matches (raw ++ raw') text ↔ ∃ before after, text = before ++ after ∧ Matches raw before ∧ Matches raw' after := by
  constructor
  · intro h
    induction raw generalizing text with
    | nil => exact ⟨[], text, rfl, .nil, h⟩
    | cons c raw ih =>
      cases h with
      | any cs h =>
        obtain ⟨before, after, rfl, hbefore, hafter⟩ := ih h
        exact ⟨cs ++ before, after, by rw [List.append_assoc], .any cs hbefore, hafter⟩
      | char hc h =>
        obtain ⟨before, after, rfl, hbefore, hafter⟩ := ih h
        exact ⟨c :: before, after, rfl, .char hc hbefore, hafter⟩
  · rintro ⟨before, after, rfl, hbefore, hafter⟩
    induction hbefore with
    | nil => exact hafter
    | any cs _ ih =>
      rw [List.append_assoc]
      exact .any cs ih
    | char hc _ ih => exact .char hc ih

/-! ## The elements of a pattern -/

/-- The element of a regular expression that a character of a pattern becomes. -/
def element (c : Char) : Element := if c = '%' then .run else .char c

/-- In the middle of a text of one line, the elements of a pattern match what the pattern matches. -/
theorem matchesAt_elements {elements : List Element} {left right : List Char} (hline : '\n' ∉ right) :
    MatchesAt (raw.map element ++ elements) left right ↔
      ∃ middle rest, right = middle ++ rest ∧ Matches raw middle ∧ MatchesAt elements (left ++ middle) rest := by
  induction raw generalizing left right with
  | nil =>
    constructor
    · intro h
      exact ⟨[], right, rfl, .nil, by simpa using h⟩
    · rintro ⟨middle, rest, rfl, hmiddle, h⟩
      rw [matches_nil] at hmiddle
      subst hmiddle
      simpa using h
  | cons c raw ih =>
    by_cases hc : c = '%'
    · subst hc
      constructor
      · intro h
        cases h with
        | @run _ _ right cs _ h =>
          obtain ⟨middle, rest, rfl, hmiddle, h⟩ := (ih (by simp_all)).mp h
          exact ⟨cs ++ middle, rest, by simp, .any cs hmiddle, by simpa using h⟩
      · rintro ⟨middle, rest, rfl, hmiddle, h⟩
        cases hmiddle with
        | @any _ middle cs hmiddle =>
          have hcs : '\n' ∉ cs := fun hmem => hline (by simp [hmem])
          rw [List.append_assoc]
          refine .run cs hcs ((ih (by simp_all)).mpr ⟨middle, rest, rfl, hmiddle, by simpa using h⟩)
        | char hne _ => exact absurd rfl hne
    · have helement : element c = .char c := if_neg hc
      constructor
      · intro h
        rw [List.map_cons, helement] at h
        cases h with
        | char _ h =>
          obtain ⟨middle, rest, rfl, hmiddle, h⟩ := (ih (by simp_all)).mp h
          exact ⟨c :: middle, rest, rfl, .char hc hmiddle, by simpa using h⟩
      · rintro ⟨middle, rest, rfl, hmiddle, h⟩
        rw [List.map_cons, helement]
        cases hmiddle with
        | any _ _ => exact absurd rfl hc
        | @char _ middle _ _ hmiddle =>
          exact .char c ((ih (by simp_all)).mpr ⟨middle, rest, rfl, hmiddle, by simpa using h⟩)

/-! ## Reading a regular expression back -/

theorem isMeta_of_isSpecial {c : Char} (h : isSpecial c = true) : isMeta c = true := by
  rw [isSpecial, List.contains_iff_mem] at h
  exact (List.all_eq_true (p := isMeta)).mp (by decide +kernel) c h

theorem isAlphanum_of_isMeta {c : Char} (h : isMeta c = true) : c.isAlphanum = false := by
  rw [isMeta, List.contains_iff_mem] at h
  have hall := (List.all_eq_true (p := fun c => !c.isAlphanum)).mp (by decide +kernel) c h
  simpa using hall

theorem parse?_of_not_special {c : Char} (h : isSpecial c = false) (rest : List Char) :
    parse? (c :: rest) = (parse? rest).map (.char c :: ·) := by
  have hne : ∀ d, isSpecial d = true → c ≠ d := by
    rintro d hd rfl
    exact absurd hd (by simp [h])
  have hslash := hne '\\' (by decide +kernel)
  have hdot := hne '.' (by decide +kernel)
  have hstart := hne '^' (by decide +kernel)
  have hstop := hne '$' (by decide +kernel)
  rw [parse?, if_neg (by simp [h])]
  · rintro _ _ rfl
    exact absurd rfl hslash
  · rintro _ rfl
    exact absurd rfl hdot
  · exact hstart
  · exact hstop

/-- A character of a text that stands for itself is read as that character, escaped or not. -/
theorem parse?_escape_single (c : Char) (rest : List Char) :
    parse? (escape [c] ++ rest) = (parse? rest).map (.char c :: ·) := by
  cases hc : isMeta c with
  | true => simp [escape, hc, parse?, isAlphanum_of_isMeta hc]
  | false =>
    have hspecial : isSpecial c = false := by
      cases hs : isSpecial c with
      | true => exact absurd (isMeta_of_isSpecial hs) (by simp [hc])
      | false => rfl
    simpa [escape, hc] using parse?_of_not_special hspecial rest

theorem segments_ne_nil (raw : List Char) : segments raw ≠ [] := by
  fun_cases segments raw <;> simp_all

theorem body_cons (c : Char) (part : List Char) (parts : List (List Char)) :
    body ((c :: part) :: parts) = escape [c] ++ body (part :: parts) := by
  cases parts <;> simp [body, escape]

/-- The segments of a pattern with `.*` between them are read as the elements of the pattern. -/
theorem parse?_body (raw rest : List Char) :
    parse? (body (segments raw) ++ rest) = (parse? rest).map (raw.map element ++ ·) := by
  induction raw with
  | nil => simp [segments, body, escape]
  | cons c raw ih =>
    obtain ⟨part, parts, hparts⟩ := List.exists_cons_of_ne_nil (segments_ne_nil raw)
    rw [hparts] at ih
    by_cases hc : c = '%'
    · subst hc
      have hbody : body (segments ('%' :: raw)) = '.' :: '*' :: body (part :: parts) := by
        simp [segments, hparts, body, escape]
      rw [hbody]
      simp only [List.cons_append, parse?, ih, Option.map_map]
      rfl
    · have hbody : body (segments (c :: raw)) = escape [c] ++ body (part :: parts) := by
        simp [segments, hparts, beq_false_of_ne hc, body_cons]
      rw [hbody, List.append_assoc, parse?_escape_single, ih, Option.map_map]
      simp only [List.map_cons, element, if_neg hc]
      rfl

/-! ## The ends of a pattern -/

theorem segments_concat (raw : List Char) : segments (raw ++ ['%']) = segments raw ++ [[]] := by
  induction raw with
  | nil => rfl
  | cons c raw ih =>
    obtain ⟨part, parts, hparts⟩ := List.exists_cons_of_ne_nil (segments_ne_nil raw)
    simp only [List.cons_append, segments, ih, hparts]
    cases c == '%' <;> rfl

/-- The pattern with a `%` at each end that is open. -/
def framed (opens closes : Bool) (inner : List Char) : List Char :=
  (if opens then ['%'] else []) ++ (inner ++ (if closes then ['%'] else []))

/-- Anything can stand at an open end, and nothing at any other. -/
theorem matches_end {isOpen : Bool} : Matches (if isOpen then ['%'] else []) text ↔ (isOpen = false → text = []) := by
  cases isOpen with
  | true => simp [matches_any]
  | false => simp [matches_nil]

theorem matches_framed {opens closes : Bool} {inner : List Char} :
    Matches (framed opens closes inner) text ↔ ∃ left middle right, text = left ++ (middle ++ right) ∧
      (opens = false → left = []) ∧ Matches inner middle ∧ (closes = false → right = []) := by
  simp only [framed, matches_append, matches_end]
  constructor
  · rintro ⟨left, _, rfl, hleft, middle, right, rfl, hmiddle, hright⟩
    exact ⟨left, middle, right, rfl, hleft, hmiddle, hright⟩
  · rintro ⟨left, middle, right, rfl, hleft, hmiddle, hright⟩
    exact ⟨left, _, rfl, hleft, middle, right, rfl, hmiddle, hright⟩

/-- A `%` at an end of a pattern is an anchor that its regular expression does not have. In `%` alone, the one character
stands at both ends. -/
theorem exists_frame (raw : List Char) :
    ∃ opens closes inner,
      patternChars raw = (if opens then [] else ['^']) ++ (body (segments inner) ++ (if closes then [] else ['$'])) ∧
      ∀ text, Matches raw text ↔ Matches (framed opens closes inner) text := by
  by_cases hopens : raw.head? = some '%'
  · obtain ⟨rest, rfl⟩ := List.head?_eq_some_iff.mp hopens
    by_cases hcloses : ('%' :: rest).getLast? = some '%'
    · rcases List.eq_nil_or_concat rest with rfl | ⟨inner, last, rfl⟩
      · refine ⟨true, true, [], rfl, fun text => iff_of_true matches_any ?_⟩
        exact matches_framed.mpr ⟨text, [], [], by simp, by simp, .nil, by simp⟩
      · rw [List.concat_eq_append] at hcloses ⊢
        obtain rfl : last = '%' := by simpa [List.getLast?_cons] using hcloses
        refine ⟨true, true, inner, ?_, fun text => Iff.rfl⟩
        simp [patternChars, segments, segments_concat, List.getLast?_cons]
    · refine ⟨true, false, rest, ?_, fun text => by simp [framed]⟩
      simp [patternChars, segments, hcloses]
  · have hhead : (raw.head? == some '%') = false := beq_false_of_ne hopens
    by_cases hcloses : raw.getLast? = some '%'
    · obtain ⟨inner, rfl⟩ := List.getLast?_eq_some_iff.mp hcloses
      refine ⟨false, true, inner, ?_, fun text => Iff.rfl⟩
      simp only [patternChars, hhead, hcloses, segments_concat]
      simp
    · refine ⟨false, false, raw, ?_, fun text => by simp [framed]⟩
      simp [patternChars, hhead, hcloses]

/-! ## The translation -/

theorem parse?_framed (opens closes : Bool) (inner : List Char) :
    parse? ((if opens then [] else ['^']) ++ (body (segments inner) ++ (if closes then [] else ['$']))) =
      some ((if opens then [] else [.start]) ++ (inner.map element ++ (if closes then [] else [.stop]))) := by
  have hstop : parse? (if closes then [] else ['$']) = some (if closes then [] else [.stop]) := by
    cases closes <;> rfl
  have hbody := parse?_body inner (if closes then [] else ['$'])
  rw [hstop, Option.map_some] at hbody
  cases opens with
  | true => simpa using hbody
  | false => simp [parse?, hbody]

/-- **LIKE patterns.** The regular expression of a pattern can be read, and it is found in a text of one line if and
only if the text follows the pattern. -/
theorem finds_pattern_iff (raw text : String) (hline : '\n' ∉ text.toList) :
    (∃ elements, parse? (pattern raw).toList = some elements) ∧
      (Finds (pattern raw) text ↔ Matches raw.toList text.toList) := by
  obtain ⟨opens, closes, inner, hpattern, hmatches⟩ := exists_frame raw.toList
  have hparse := parse?_framed opens closes inner
  rw [← hpattern, ← String.toList_ofList (l := patternChars raw.toList)] at hparse
  refine ⟨⟨_, hparse⟩, ?_⟩
  rw [hmatches, matches_framed]
  constructor
  · rintro ⟨elements, helements, left, right, hcut, h⟩
    obtain rfl := Option.some.inj (hparse.symm.trans helements)
    obtain ⟨hleft, h⟩ := matchesAt_opening.mp h
    have hright : '\n' ∉ right := fun hmem => hline (by simp [hcut, hmem])
    obtain ⟨middle, rest, rfl, hmiddle, h⟩ := (matchesAt_elements hright).mp h
    exact ⟨left, middle, rest, hcut, hleft, hmiddle, matchesAt_closing.mp h⟩
  · rintro ⟨left, middle, rest, hcut, hleft, hmiddle, hrest⟩
    have hright : '\n' ∉ middle ++ rest := fun hmem => hline (by simp only [hcut, List.mem_append_right left hmem])
    refine ⟨_, hparse, left, middle ++ rest, hcut, matchesAt_opening.mpr ⟨hleft, ?_⟩⟩
    exact (matchesAt_elements hright).mpr ⟨middle, rest, rfl, hmiddle, matchesAt_closing.mpr hrest⟩

/-- The point of the pattern is a point, and its `%` any digits. -/
theorem finds_pattern_iff_price :
    '\n' ∉ "1.50 EUR".toList ∧ '\n' ∉ "1050 EUR".toList ∧
      Finds (pattern "1.%EUR") "1.50 EUR" ∧ ¬ Finds (pattern "1.%EUR") "1050 EUR" := by
  have hprice : '\n' ∉ "1.50 EUR".toList := by decide
  have hwhole : '\n' ∉ "1050 EUR".toList := by decide
  refine ⟨hprice, hwhole, (finds_pattern_iff _ _ hprice).2.mpr ?_, fun h => ?_⟩
  · exact .char (by decide) (.char (by decide) (.any ['5', '0', ' ']
      (.char (by decide) (.char (by decide) (.char (by decide) .nil)))))
  · have hmatches : Matches "1.%EUR".toList "1050 EUR".toList := (finds_pattern_iff _ _ hwhole).2.mp h
    cases hmatches with
    | char _ h => cases h

end Like

end DocQuery
