import DocQuery.Proofs.Writing.Compact
import DocQuery.Report

/-!
# Documents as lines

The text of a document without quotes and brackets around its structure says all about the document
(`text_eq_text_iff`), if its keys can be told from what stands around them (`PlainKey`). The text is read in three steps.

* The text is cut at its line ends. No line has one inside, and no line ends in a blank, so that the end of the text is
  the end of its last line (`lines_eq_of_text_eq`).
* A line is a `Row`: a depth, a key or a dash, and perhaps a value on the line. The key does not begin with a space and
  has no colon, so the row is known from its text (`Row.text_inj`).
* Rows are put together to fields and items. What belongs to a field or an item are the rows behind it that are deeper
  (`Shallow`), and the first of these tells an object from an array (`blockRows_append_inj`).
-/

namespace DocQuery

/-! ## Keys -/

namespace Json

mutual

/-- The keys of all objects inside a value. -/
def allKeys : Json → List String
  | .obj fields => fieldKeys fields
  | .arr items => itemKeys items
  | _ => []

def fieldKeys : List (String × Json) → List String
  | [] => []
  | (name, value) :: rest => name :: (allKeys value ++ fieldKeys rest)

def itemKeys : List Json → List String
  | [] => []
  | item :: rest => allKeys item ++ itemKeys rest

end

end Json

namespace Report

/-- A key that can be told from what stands around it on a line. -/
def PlainKey (name : String) : Prop :=
  '\n' ∉ name.toList ∧ ':' ∉ name.toList ∧ name.toList.head? ≠ some ' ' ∧ name.toList.head? ≠ some '-'

instance : DecidablePred PlainKey := fun _ => inferInstanceAs (Decidable (_ ∧ _ ∧ _ ∧ _))

/-! ## Rows -/

/-- What a line of a document says. -/
@[ext]
structure Row where
  depth : Nat
  /-- The key of a field. An item of an array has none. -/
  label : Option String
  /-- The value, unless it stands on the lines below. -/
  value : Option Json

/-- What a line begins with behind its margin. -/
def mark (label : Option String) : String := label.elim "-" (· ++ ":")

/-- What follows the mark on its line. -/
def suffix (value : Option Json) : String := value.elim "" (" " ++ ·.compact)

def Row.text (row : Row) : String := Json.margin row.depth ++ mark row.label ++ suffix row.value

/-- The label of the row is a dash or a plain key. -/
def Row.Plain (row : Row) : Prop := ∀ name ∈ row.label, PlainKey name

mutual

/-- The rows of a value that takes lines of its own. -/
def blockRows (depth : Nat) : Json → List Row
  | .obj fields => fieldRows depth fields
  | .arr items => itemRows depth items
  | _ => []

def fieldRows (depth : Nat) : List (String × Json) → List Row
  | [] => []
  | (name, value) :: rest =>
    (if isBlock value then ⟨depth, some name, none⟩ :: blockRows (depth + 1) value
      else [⟨depth, some name, some value⟩]) ++ fieldRows depth rest

def itemRows (depth : Nat) : List Json → List Row
  | [] => []
  | item :: rest =>
    (if isFilledObject item then ⟨depth, none, none⟩ :: blockRows (depth + 1) item
      else [⟨depth, none, some item⟩]) ++ itemRows depth rest

end

section Equations

variable {depth : Nat} {name : String} {value item : Json} {fields : List (String × Json)} {items : List Json}

theorem fieldRows_block (h : isBlock value = true) : fieldRows depth ((name, value) :: fields) =
    ⟨depth, some name, none⟩ :: (blockRows (depth + 1) value ++ fieldRows depth fields) := by
  rw [fieldRows, if_pos h, List.cons_append]

theorem fieldRows_inline (h : isBlock value = false) :
    fieldRows depth ((name, value) :: fields) = ⟨depth, some name, some value⟩ :: fieldRows depth fields := by
  rw [fieldRows, if_neg (by simp [h]), List.singleton_append]

theorem itemRows_block (h : isFilledObject item = true) : itemRows depth (item :: items) =
    ⟨depth, none, none⟩ :: (blockRows (depth + 1) item ++ itemRows depth items) := by
  rw [itemRows, if_pos h, List.cons_append]

theorem itemRows_inline (h : isFilledObject item = false) :
    itemRows depth (item :: items) = ⟨depth, none, some item⟩ :: itemRows depth items := by
  rw [itemRows, if_neg (by simp [h]), List.singleton_append]

theorem isBlock_of_isFilledObject (h : isFilledObject item = true) : isBlock item = true := by
  cases item with
  | obj fields => exact h
  | _ => cases h

end Equations

mutual

theorem lines_eq_rows : ∀ (depth : Nat) (j : Json), isBlock j = true →
    lines .label depth j = (blockRows depth j).map Row.text
  | depth, .obj fields, h => by
    have hfields : fields.isEmpty = false := by simpa [isBlock] using h
    rw [lines, hfields, blockRows, fieldLines_eq_rows depth fields]
    rfl
  | depth, .arr items, h => by
    have hitems : items.isEmpty = false := by simpa [isBlock] using h
    rw [lines, hitems, blockRows, itemLines_eq_rows depth items]
    rfl
  | _, .null, h => by cases h
  | _, .bool _, h => by cases h
  | _, .num _, h => by cases h
  | _, .str _, h => by cases h

theorem fieldLines_eq_rows : ∀ (depth : Nat) (fields : List (String × Json)),
    fieldLines .label depth fields = (fieldRows depth fields).map Row.text
  | _, [] => rfl
  | depth, (name, value) :: rest => by
    rw [fieldLines, fieldLines_eq_rows depth rest]
    cases hblock : isBlock value with
    | true =>
      have hrow : Json.margin depth ++ key .label name ++ ":" = (Row.mk depth (some name) none).text := by
        simp [Row.text, mark, suffix, key, String.append_assoc]
      simp [fieldRows_block hblock, lines_eq_rows (depth + 1) value hblock, hrow]
    | false =>
      have hrow : Json.margin depth ++ key .label name ++ ": " ++ value.compact =
          (Row.mk depth (some name) (some value)).text := by
        simp [← String.toList_inj, Row.text, mark, suffix, key]
      simp [fieldRows_inline hblock, hrow]

theorem itemLines_eq_rows : ∀ (depth : Nat) (items : List Json),
    itemLines .label depth items = (itemRows depth items).map Row.text
  | _, [] => rfl
  | depth, item :: rest => by
    rw [itemLines, itemLines_eq_rows depth rest]
    cases hfilled : isFilledObject item with
    | true =>
      have hrow : Json.margin depth ++ "-" = (Row.mk depth none none).text := by simp [Row.text, mark, suffix]
      simp [itemRows_block hfilled, lines_eq_rows (depth + 1) item (isBlock_of_isFilledObject hfilled), hrow]
    | false =>
      have hrow : Json.margin depth ++ "-" ++ " " ++ item.compact = (Row.mk depth none (some item)).text := by
        simp [← String.toList_inj, Row.text, mark, suffix]
      simp [itemRows_inline hfilled, hrow]

end

/-! ## The text of a row -/

theorem toList_text (row : Row) :
    row.text.toList = List.replicate (2 * row.depth) ' ' ++ ((mark row.label).toList ++ (suffix row.value).toList) := by
  simp [Row.text, Json.margin, toList_pushn]

theorem head_mark {label : Option String} (h : ∀ name ∈ label, PlainKey name) (rest : List Char) :
    ∀ c ∈ ((mark label).toList ++ rest).head?, decide (c = ' ') = false := by
  cases label with
  | none => simp [mark]
  | some name =>
    obtain ⟨_, _, hspace, _⟩ := h name rfl
    cases hname : name.toList with
    | nil => simp [mark, hname]
    | cons c cs =>
      rw [hname] at hspace
      simpa [mark, hname] using hspace

/-- A key does not look like a dash, and ends at its colon. -/
theorem mark_append_inj {a b : Option String} {r s : List Char} (ha : ∀ name ∈ a, PlainKey name)
    (hb : ∀ name ∈ b, PlainKey name) (h : (mark a).toList ++ r = (mark b).toList ++ s) : a = b ∧ r = s := by
  have hdash : ∀ {name : String} {r s : List Char}, PlainKey name →
      (mark (some name)).toList ++ r ≠ (mark none).toList ++ s := by
    intro name r s hname h
    obtain ⟨_, _, _, hfirst⟩ := hname
    cases hlist : name.toList with
    | nil => simp [mark, hlist] at h
    | cons c cs =>
      rw [hlist] at hfirst
      simp_all [mark]
  cases a with
  | none =>
    cases b with
    | none => exact ⟨rfl, List.append_cancel_left h⟩
    | some l => exact absurd h.symm (hdash (hb l rfl))
  | some k =>
    cases b with
    | none => exact absurd h (hdash (ha k rfl))
    | some l =>
      have hcolon : ∀ {name : String}, PlainKey name → ∀ c ∈ name.toList, decide (c ≠ ':') = true := by
        rintro name hname c hc
        have hne : c ≠ ':' := fun h => hname.2.1 (h ▸ hc)
        simpa using hne
      simp only [mark, Option.elim_some, String.toList_append, List.append_assoc] at h
      obtain ⟨hkey, hrest⟩ := append_inj_of_class (hcolon (ha k rfl)) (hcolon (hb l rfl)) (by simp) (by simp) h
      exact ⟨congrArg some (String.toList_inj.mp hkey), List.append_cancel_left hrest⟩

theorem suffix_inj {a b : Option Json} (h : (suffix a).toList = (suffix b).toList) : a = b := by
  cases a with
  | none =>
    cases b with
    | none => rfl
    | some y => simp [suffix] at h
  | some x =>
    cases b with
    | none => simp [suffix] at h
    | some y =>
      have hcompact : x.compact.toList = y.compact.toList := by simpa [suffix] using h
      exact congrArg some (Json.compact_injective (String.toList_inj.mp hcompact))

/-- **A row is known from its text.** -/
theorem Row.text_inj {a b : Row} (ha : a.Plain) (hb : b.Plain) (h : a.text = b.text) : a = b := by
  have hlist := congrArg String.toList h
  rw [toList_text, toList_text] at hlist
  obtain ⟨hmargin, hline⟩ := append_inj_of_class (by simp) (by simp) (head_mark ha _) (head_mark hb _) hlist
  obtain ⟨hlabel, htail⟩ := mark_append_inj ha hb hline
  have hdepth : 2 * a.depth = 2 * b.depth := by simpa using congrArg List.length hmargin
  exact Row.ext (by omega) hlabel (suffix_inj htail)

/-! ## Reading rows -/

/-- The rows do not go on at this depth. -/
def Shallow (depth : Nat) (rows : List Row) : Prop := ∀ row ∈ rows.head?, row.depth < depth

/-- The rows of fields begin with a key at their depth. -/
theorem head_fieldRows (depth : Nat) (fields : List (String × Json)) :
    ∀ row ∈ (fieldRows depth fields).head?, row.depth = depth ∧ row.label.isSome = true := by
  cases fields with
  | nil => simp [fieldRows]
  | cons field rest => cases hblock : isBlock field.2 <;> simp [fieldRows, hblock]

/-- The rows of items begin with a dash at their depth. -/
theorem head_itemRows (depth : Nat) (items : List Json) :
    ∀ row ∈ (itemRows depth items).head?, row.depth = depth ∧ row.label.isSome = false := by
  cases items with
  | nil => simp [itemRows]
  | cons item rest => cases hfilled : isFilledObject item <;> simp [itemRows, hfilled]

theorem fieldRows_ne_nil (depth : Nat) (field : String × Json) (rest : List (String × Json)) :
    fieldRows depth (field :: rest) ≠ [] := by
  cases hblock : isBlock field.2 <;> simp [fieldRows, hblock]

theorem itemRows_ne_nil (depth : Nat) (item : Json) (rest : List Json) : itemRows depth (item :: rest) ≠ [] := by
  cases hfilled : isFilledObject item <;> simp [itemRows, hfilled]

section Shallow

variable {depth : Nat} {first rows : List Row}

/-- Rows at a depth end what is deeper. -/
theorem Shallow.prepend (h : Shallow depth rows) (hfirst : ∀ row ∈ first.head?, row.depth = depth) :
    Shallow (depth + 1) (first ++ rows) := by
  cases first with
  | nil => exact fun row hrow => Nat.lt_succ_of_lt (h row hrow)
  | cons row first =>
    rintro _ ⟨⟩
    exact Nat.lt_succ_of_le (hfirst row rfl).le

theorem Shallow.eq_nil (h : Shallow depth (first ++ rows)) (hfirst : ∀ row ∈ first.head?, row.depth = depth) :
    first = [] := by
  cases first with
  | nil => rfl
  | cons row first => exact absurd (hfirst row rfl) (h row rfl).ne

end Shallow

/-- The first row tells an object from an array. -/
theorem fieldRows_ne_itemRows {depth : Nat} {fields : List (String × Json)} {items : List Json}
    (hfields : isBlock (.obj fields) = true) (hitems : isBlock (.arr items) = true) (r s : List Row) :
    fieldRows depth fields ++ r ≠ itemRows depth items ++ s := by
  cases fields with
  | nil => cases hfields
  | cons field fields =>
    cases items with
    | nil => cases hitems
    | cons item items =>
      obtain ⟨row, rows, hfield⟩ := List.exists_cons_of_ne_nil (fieldRows_ne_nil depth field fields)
      obtain ⟨row', rows', hitem⟩ := List.exists_cons_of_ne_nil (itemRows_ne_nil depth item items)
      -- A field is labelled by its key and an item by none.
      have hlabel := (head_fieldRows depth (field :: fields) row (by simp [hfield])).2
      have hlabel' := (head_itemRows depth (item :: items) row' (by simp [hitem])).2
      intro h
      rw [hfield, hitem] at h
      obtain ⟨rfl, _⟩ := List.cons.inj h
      simp [hlabel] at hlabel'

mutual

/-- **The rows of a block can be cut off from what follows them in one way only.** -/
theorem blockRows_append_inj : ∀ (a b : Json) {depth : Nat} {r s : List Row}, isBlock a = true → isBlock b = true →
    Shallow depth r → Shallow depth s → blockRows depth a ++ r = blockRows depth b ++ s → a = b ∧ r = s
  | .obj xs, b => by
    intro ha hb hr hs h
    cases b with
    | obj ys =>
      obtain ⟨rfl, rfl⟩ := fieldRows_append_inj xs ys hr hs h
      exact ⟨rfl, rfl⟩
    | arr ys => exact absurd h (fieldRows_ne_itemRows ha hb _ _)
    | _ => cases hb
  | .arr xs, b => by
    intro ha hb hr hs h
    cases b with
    | obj ys => exact absurd h.symm (fieldRows_ne_itemRows hb ha _ _)
    | arr ys =>
      obtain ⟨rfl, rfl⟩ := itemRows_append_inj xs ys hr hs h
      exact ⟨rfl, rfl⟩
    | _ => cases hb
  | .null, _ => by
    intro ha
    cases ha
  | .bool _, _ => by
    intro ha
    cases ha
  | .num _, _ => by
    intro ha
    cases ha
  | .str _, _ => by
    intro ha
    cases ha

theorem fieldRows_append_inj : ∀ (xs ys : List (String × Json)) {depth : Nat} {r s : List Row}, Shallow depth r →
    Shallow depth s → fieldRows depth xs ++ r = fieldRows depth ys ++ s → xs = ys ∧ r = s
  | [], [] => fun _ _ h => ⟨rfl, h⟩
  | [], y :: ys => by
    rintro hr - rfl
    exact absurd (hr.eq_nil fun row hrow => (head_fieldRows _ _ row hrow).1) (fieldRows_ne_nil _ y ys)
  | x :: xs, [] => by
    rintro - hs rfl
    exact absurd (hs.eq_nil fun row hrow => (head_fieldRows _ _ row hrow).1) (fieldRows_ne_nil _ x xs)
  | (k, x) :: xs, (l, y) :: ys => by
    intro hr hs h
    cases hx : isBlock x with
    | true =>
      cases hy : isBlock y with
      | true =>
        simp only [fieldRows_block hx, fieldRows_block hy, List.cons_append, List.append_assoc, List.cons.injEq,
          Row.mk.injEq, Option.some.injEq, true_and, and_true] at h
        obtain ⟨rfl, hblock⟩ := h
        -- The block ends where the next field, or what follows the object, stands less deep.
        have hends := hr.prepend fun row hrow => (head_fieldRows _ xs row hrow).1
        have hends' := hs.prepend fun row hrow => (head_fieldRows _ ys row hrow).1
        obtain ⟨rfl, hrest⟩ := blockRows_append_inj x y hx hy hends hends' hblock
        obtain ⟨rfl, rfl⟩ := fieldRows_append_inj xs ys hr hs hrest
        exact ⟨rfl, rfl⟩
      | false => simp [fieldRows_block hx, fieldRows_inline hy] at h
    | false =>
      cases hy : isBlock y with
      | true => simp [fieldRows_inline hx, fieldRows_block hy] at h
      | false =>
        simp only [fieldRows_inline hx, fieldRows_inline hy, List.cons_append, List.cons.injEq, Row.mk.injEq,
          Option.some.injEq, true_and] at h
        obtain ⟨⟨rfl, rfl⟩, hrest⟩ := h
        obtain ⟨rfl, rfl⟩ := fieldRows_append_inj xs ys hr hs hrest
        exact ⟨rfl, rfl⟩

theorem itemRows_append_inj : ∀ (xs ys : List Json) {depth : Nat} {r s : List Row}, Shallow depth r →
    Shallow depth s → itemRows depth xs ++ r = itemRows depth ys ++ s → xs = ys ∧ r = s
  | [], [] => fun _ _ h => ⟨rfl, h⟩
  | [], y :: ys => by
    rintro hr - rfl
    exact absurd (hr.eq_nil fun row hrow => (head_itemRows _ _ row hrow).1) (itemRows_ne_nil _ y ys)
  | x :: xs, [] => by
    rintro - hs rfl
    exact absurd (hs.eq_nil fun row hrow => (head_itemRows _ _ row hrow).1) (itemRows_ne_nil _ x xs)
  | x :: xs, y :: ys => by
    intro hr hs h
    cases hx : isFilledObject x with
    | true =>
      cases hy : isFilledObject y with
      | true =>
        simp only [itemRows_block hx, itemRows_block hy, List.cons_append, List.append_assoc, List.cons.injEq,
          true_and] at h
        have hends := hr.prepend fun row hrow => (head_itemRows _ xs row hrow).1
        have hends' := hs.prepend fun row hrow => (head_itemRows _ ys row hrow).1
        obtain ⟨rfl, hrest⟩ := blockRows_append_inj x y (isBlock_of_isFilledObject hx) (isBlock_of_isFilledObject hy)
          hends hends' h
        obtain ⟨rfl, rfl⟩ := itemRows_append_inj xs ys hr hs hrest
        exact ⟨rfl, rfl⟩
      | false => simp [itemRows_block hx, itemRows_inline hy] at h
    | false =>
      cases hy : isFilledObject y with
      | true => simp [itemRows_inline hx, itemRows_block hy] at h
      | false =>
        simp only [itemRows_inline hx, itemRows_inline hy, List.cons_append, List.cons.injEq, Row.mk.injEq,
          Option.some.injEq, true_and] at h
        obtain ⟨rfl, hrest⟩ := h
        obtain ⟨rfl, rfl⟩ := itemRows_append_inj xs ys hr hs hrest
        exact ⟨rfl, rfl⟩

end

/-! ## Keys of rows -/

mutual

theorem mem_allKeys_of_blockRows : ∀ (j : Json) {depth : Nat} {row : Row} {name : String}, row ∈ blockRows depth j →
    name ∈ row.label → name ∈ j.allKeys
  | .obj fields => mem_fieldKeys_of_fieldRows fields
  | .arr items => mem_itemKeys_of_itemRows items
  | .null => by simp [blockRows]
  | .bool _ => by simp [blockRows]
  | .num _ => by simp [blockRows]
  | .str _ => by simp [blockRows]

theorem mem_fieldKeys_of_fieldRows : ∀ (fields : List (String × Json)) {depth : Nat} {row : Row} {name : String},
    row ∈ fieldRows depth fields → name ∈ row.label → name ∈ Json.fieldKeys fields
  | [] => by simp [fieldRows]
  | (key, value) :: rest => by
    intro hrow hname
    rw [Json.fieldKeys, List.mem_cons, List.mem_append]
    cases hblock : isBlock value with
    | true =>
      rw [fieldRows_block hblock, List.mem_cons, List.mem_append] at hrow
      rcases hrow with rfl | hrow | hrow
      · exact .inl (Option.some.inj hname).symm
      · exact .inr (.inl (mem_allKeys_of_blockRows value hrow hname))
      · exact .inr (.inr (mem_fieldKeys_of_fieldRows rest hrow hname))
    | false =>
      rw [fieldRows_inline hblock, List.mem_cons] at hrow
      rcases hrow with rfl | hrow
      · exact .inl (Option.some.inj hname).symm
      · exact .inr (.inr (mem_fieldKeys_of_fieldRows rest hrow hname))

theorem mem_itemKeys_of_itemRows : ∀ (items : List Json) {depth : Nat} {row : Row} {name : String},
    row ∈ itemRows depth items → name ∈ row.label → name ∈ Json.itemKeys items
  | [] => by simp [itemRows]
  | item :: rest => by
    intro hrow hname
    rw [Json.itemKeys, List.mem_append]
    cases hfilled : isFilledObject item with
    | true =>
      rw [itemRows_block hfilled, List.mem_cons, List.mem_append] at hrow
      rcases hrow with rfl | hrow | hrow
      · cases hname
      · exact .inl (mem_allKeys_of_blockRows item hrow hname)
      · exact .inr (mem_itemKeys_of_itemRows rest hrow hname)
    | false =>
      rw [itemRows_inline hfilled, List.mem_cons] at hrow
      rcases hrow with rfl | hrow
      · cases hname
      · exact .inr (mem_itemKeys_of_itemRows rest hrow hname)

end

/-! ## Lines and their ends -/

/-- A line with no line end inside and no blank at its end. -/
def Tidy (line : String) : Prop := '\n' ∉ line.toList ∧ Text.EndsFilled line.toList

theorem tidy_text {row : Row} (h : row.Plain) : Tidy row.text := by
  have hmark : '\n' ∉ (mark row.label).toList ∧ Text.EndsFilled (mark row.label).toList := by
    cases hlabel : row.label with
    | none => exact ⟨by decide, '-', rfl, rfl⟩
    | some name =>
      have hname : '\n' ∉ name.toList := (h name hlabel).1
      simp only [mark, Option.elim_some, String.toList_append]
      exact ⟨by simp [hname], Text.EndsFilled.append ⟨':', rfl, rfl⟩ name.toList⟩
  have hsuffix : '\n' ∉ (suffix row.value).toList ∧
      Text.EndsFilled ((mark row.label).toList ++ (suffix row.value).toList) := by
    cases hvalue : row.value with
    | none => exact ⟨by decide, by simpa [suffix] using hmark.2⟩
    | some value =>
      have hcompact := value.newline_notMem_compact
      simp only [suffix, Option.elim_some, String.toList_append]
      exact ⟨by simp [hcompact], (value.endsFilled_compact.append " ".toList).append _⟩
  rw [Tidy, toList_text]
  exact ⟨by simp [hmark.1, hsuffix.1], hsuffix.2.append _⟩

/-- Lines are known from the text that ends each of them. -/
theorem eq_of_flatMap_eq {ls ms : List String} (hls : ∀ l ∈ ls, Tidy l) (hms : ∀ l ∈ ms, Tidy l)
    (h : ls.flatMap (·.toList ++ ['\n']) = ms.flatMap (·.toList ++ ['\n'])) : ls = ms := by
  induction ls generalizing ms with
  | nil =>
    cases ms with
    | nil => rfl
    | cons m ms => simp at h
  | cons l ls ih =>
    cases ms with
    | nil => simp at h
    | cons m ms =>
      have hline : ∀ {line : String}, Tidy line → ∀ c ∈ line.toList, decide (c ≠ '\n') = true := by
        intro line hline c hc
        have hne : c ≠ '\n' := fun h => hline.1 (h ▸ hc)
        simpa using hne
      simp only [List.flatMap_cons, List.append_assoc] at h
      obtain ⟨hfirst, hrest⟩ :=
        append_inj_of_class (hline (hls l (by simp))) (hline (hms m (by simp))) (by simp) (by simp) h
      rw [String.toList_inj.mp hfirst, ih (fun l h => hls l (by simp [h])) (fun m h => hms m (by simp [h]))
        (List.append_cancel_left hrest)]

/-- The text of tidy lines lacks nothing but its last line end. -/
theorem toList_trimEnd_join {ls : List String} (hne : ls ≠ []) (hls : ∀ l ∈ ls, Tidy l) :
    (Text.trimEnd (String.join (ls.map (· ++ "\n")))).toList ++ ['\n'] = ls.flatMap (·.toList ++ ['\n']) := by
  obtain ⟨before, last, rfl⟩ : ∃ before last, ls = before ++ [last] := ⟨_, _, (List.dropLast_concat_getLast hne).symm⟩
  have hjoin : (String.join ((before ++ [last]).map (· ++ "\n"))).toList =
      (before.flatMap (·.toList ++ ['\n']) ++ last.toList) ++ ['\n'] := by
    simp [String.toList_join, List.flatMap_map]
  have hlast : Text.EndsFilled last.toList := (hls last (by simp)).2
  have hblank : ∀ c ∈ ['\n'], Text.isBlank c = true := List.forall_mem_singleton.mpr rfl
  rw [Text.toList_trimEnd hjoin (hlast.append _) hblank]
  simp

/-! ## Documents -/

theorem eq_of_map_text_eq {as bs : List Row} (has : ∀ row ∈ as, row.Plain) (hbs : ∀ row ∈ bs, row.Plain)
    (h : as.map Row.text = bs.map Row.text) : as = bs := by
  induction as generalizing bs with
  | nil => exact (List.map_eq_nil_iff.mp h.symm).symm
  | cons a as ih =>
    obtain ⟨b, bs, rfl, hfirst, hrest⟩ := List.map_eq_cons_iff.mp h.symm
    rw [Row.text_inj (has a (by simp)) (hbs b (by simp)) hfirst.symm, ih (fun row h => has row (by simp [h]))
      (fun row h => hbs row (by simp [h])) hrest.symm]

section Documents

variable {x y : Object}

theorem plain_rows (hx : ∀ name ∈ (Json.obj x).allKeys, PlainKey name) : ∀ row ∈ fieldRows 0 x, row.Plain :=
  fun _ hrow name hname => hx name (mem_fieldKeys_of_fieldRows x hrow hname)

theorem lines_ne_nil (x : Object) : lines .label 0 (.obj x) ≠ [] := by
  cases x with
  | nil => simp [lines]
  | cons field rest => simp [lines_eq_rows 0 (.obj (field :: rest)) rfl, blockRows, fieldRows_ne_nil]

theorem tidy_lines (hx : ∀ name ∈ (Json.obj x).allKeys, PlainKey name) :
    ∀ line ∈ lines .label 0 (.obj x), Tidy line := by
  cases x with
  | nil =>
    have hline : Tidy (Json.margin 0 ++ (Json.obj []).compact) := ⟨by decide, '\x7d', rfl, rfl⟩
    simpa [lines] using hline
  | cons field rest =>
    rw [lines_eq_rows 0 (.obj (field :: rest)) rfl]
    intro line hline
    obtain ⟨row, hrow, rfl⟩ := List.mem_map.mp hline
    exact tidy_text (plain_rows hx row hrow)

/-- The text of the lines determines the lines. -/
theorem lines_eq_of_text_eq (hx : ∀ name ∈ (Json.obj x).allKeys, PlainKey name)
    (hy : ∀ name ∈ (Json.obj y).allKeys, PlainKey name) (h : text .label (.obj x) = text .label (.obj y)) :
    lines .label 0 (.obj x) = lines .label 0 (.obj y) := by
  refine eq_of_flatMap_eq (tidy_lines hx) (tidy_lines hy) ?_
  rw [text, text] at h
  rw [← toList_trimEnd_join (lines_ne_nil x) (tidy_lines hx), ← toList_trimEnd_join (lines_ne_nil y) (tidy_lines hy), h]

/-- The brackets of an empty object are no field: a field has a colon. -/
theorem lines_nil_ne (field : String × Json) (rest : List (String × Json)) :
    lines .label 0 (.obj []) ≠ lines .label 0 (.obj (field :: rest)) := by
  obtain ⟨row, rows, hrows⟩ := List.exists_cons_of_ne_nil (fieldRows_ne_nil 0 field rest)
  obtain ⟨name, hname⟩ := Option.isSome_iff_exists.mp (head_fieldRows 0 (field :: rest) row (by simp [hrows])).2
  have hcolon : ':' ∈ row.text.toList := by simp [toList_text, hname, mark]
  intro h
  rw [lines_eq_rows 0 (.obj (field :: rest)) rfl, blockRows, hrows, lines, List.map_cons] at h
  rw [← (List.cons.inj h).1] at hcolon
  exact absurd hcolon (by decide)

/-- **The text of a document says all about it**, down to the order of its fields, if the keys inside it are plain. -/
theorem text_eq_text_iff (hx : ∀ name ∈ (Json.obj x).allKeys, PlainKey name)
    (hy : ∀ name ∈ (Json.obj y).allKeys, PlainKey name) :
    text .label (.obj x) = text .label (.obj y) ↔ x = y := by
  constructor
  · intro h
    have hlines := lines_eq_of_text_eq hx hy h
    cases x with
    | nil =>
      cases y with
      | nil => rfl
      | cons field rest => exact absurd hlines (lines_nil_ne field rest)
    | cons field rest =>
      cases y with
      | nil => exact absurd hlines.symm (lines_nil_ne field rest)
      | cons field' rest' =>
        rw [lines_eq_rows 0 (.obj (field :: rest)) rfl, lines_eq_rows 0 (.obj (field' :: rest')) rfl] at hlines
        have hrows := eq_of_map_text_eq (plain_rows hx) (plain_rows hy) hlines
        have hend : Shallow 0 [] := by simp [Shallow]
        exact (fieldRows_append_inj (field :: rest) (field' :: rest') hend hend (by rw [hrows])).1
  · rintro rfl
    rfl

/-- A filter with a limit beside it. -/
def limitBeside : Object := [("filter", .obj [("$or", .arr [.obj [("a", .int 1)], .arr []])]), ("limit", .int 0)]

/-- A filter with a limit inside. -/
def limitInside : Object := [("filter", .obj [("$or", .arr [.obj [("a", .int 1)], .arr []]), ("limit", .int 0)])]

theorem text_eq_text_iff_limit : (∀ name ∈ (Json.obj limitBeside).allKeys, PlainKey name) ∧
    (∀ name ∈ (Json.obj limitInside).allKeys, PlainKey name) ∧
    text .label (.obj limitBeside) ≠ text .label (.obj limitInside) := by
  have hbeside : ∀ name ∈ (Json.obj limitBeside).allKeys, PlainKey name := by decide +kernel
  have hinside : ∀ name ∈ (Json.obj limitInside).allKeys, PlainKey name := by decide +kernel
  exact ⟨hbeside, hinside, (text_eq_text_iff hbeside hinside).not.mpr (by simp [limitBeside, limitInside])⟩

/-- A key with a colon and a line end takes the place of a field. -/
example : text .label (.obj [("a", .int 1), ("b", .int 2)]) = text .label (.obj [("a: 1\nb", .int 2)]) := by
  decide +kernel

end Documents

end Report

end DocQuery
