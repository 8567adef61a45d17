import DocQuery.Json.Source
import DocQuery.Proofs.Numbers.Texts
import DocQuery.Text.Blank

/-!
# Values on one line

The text of a value on one line can be cut off from what follows it in one way only (`compact_append_inj`). The first
character tells the kind of the value (`exists_head_compact`). A string ends at the first quote that is not part of an
escape, and an array or object at the mark that closes it; a number ends where something follows that is no character of
numbers (`Ends`). So the text says all about the value (`compact_injective`). It has no line end
(`newline_notMem_compact`), and no blank at its end (`endsFilled_compact`).
-/

namespace DocQuery

/-- Two texts that are cut at the first character outside a class. -/
theorem append_inj_of_class {α : Type} {p : α → Bool} {l l' r r' : List α} (hl : ∀ c ∈ l, p c = true)
    (hl' : ∀ c ∈ l', p c = true) (hr : ∀ c ∈ r.head?, p c = false) (hr' : ∀ c ∈ r'.head?, p c = false)
    (h : l ++ r = l' ++ r') : l = l' ∧ r = r' := by
  have hstop : ∀ {r : List α}, (∀ c ∈ r.head?, p c = false) → r.takeWhile p = [] := by
    intro r hr
    cases r with
    | nil => rfl
    | cons c r => simp [hr c rfl]
  have htake := congrArg (List.takeWhile p) h
  rw [List.takeWhile_append_of_pos hl, List.takeWhile_append_of_pos hl', hstop hr, hstop hr', List.append_nil,
    List.append_nil] at htake
  subst htake
  exact ⟨rfl, List.append_cancel_left h⟩

namespace Json

/-! ## String literals -/

/-- Reads one character of a string literal, unless the literal ends. -/
def unescape? : List Char → Option (Char × List Char)
  | '"' :: _ => none
  | '\\' :: 'u' :: '0' :: '0' :: a :: b :: rest => do
    return (Char.ofNat (16 * (← Source.hexValue? a) + (← Source.hexValue? b)), rest)
  | '\\' :: c :: rest => do return (← Source.escaped? c, rest)
  | c :: rest => some (c, rest)
  | [] => none

theorem hexValue?_hexDigit : ∀ n, n < 16 → Source.hexValue? (hexDigit n) = some n := by decide

/-- A character is written with an escape of two characters, by its number, or as it is. -/
theorem escapeChar_cases (c : Char) :
    (∃ d, escapeChar c = ['\\', d] ∧ Source.escaped? d = some c ∧ d ≠ 'u' ∧ d ≠ '\n') ∨
      (c.toNat < 32 ∧
        escapeChar c = ['\\', 'u', '0', '0', hexDigit (c.toNat / 16), hexDigit (c.toNat % 16)]) ∨
      (escapeChar c = [c] ∧ c ≠ '"' ∧ c ≠ '\\' ∧ c ≠ '\n') := by
  by_cases hquote : c = '"'
  · subst hquote
    exact .inl ⟨'"', rfl, rfl, by decide, by decide⟩
  by_cases hslash : c = '\\'
  · subst hslash
    exact .inl ⟨'\\', rfl, rfl, by decide, by decide⟩
  by_cases hnewline : c = '\n'
  · subst hnewline
    exact .inl ⟨'n', rfl, rfl, by decide, by decide⟩
  by_cases hreturn : c = '\r'
  · subst hreturn
    exact .inl ⟨'r', rfl, rfl, by decide, by decide⟩
  by_cases htab : c = '\t'
  · subst htab
    exact .inl ⟨'t', rfl, rfl, by decide, by decide⟩
  by_cases hback : c = '\x08'
  · subst hback
    exact .inl ⟨'b', rfl, rfl, by decide, by decide⟩
  by_cases hform : c = '\x0c'
  · subst hform
    exact .inl ⟨'f', rfl, rfl, by decide, by decide⟩
  rw [escapeChar, if_neg hquote, if_neg hslash, if_neg hnewline, if_neg hreturn, if_neg htab, if_neg hback,
    if_neg hform]
  by_cases hcontrol : c < ' '
  · exact .inr (.inl ⟨hcontrol, if_pos hcontrol⟩)
  · exact .inr (.inr ⟨if_neg hcontrol, hquote, hslash, hnewline⟩)

theorem unescape?_escapeChar (c : Char) (rest : List Char) : unescape? (escapeChar c ++ rest) = some (c, rest) := by
  rcases escapeChar_cases c with ⟨d, hescape, hread, hunicode, _⟩ | ⟨hlt, hescape⟩ | ⟨hescape, hquote, hslash, _⟩
  · simp [hescape, unescape?, hread, hunicode]
  · have hhigh := hexValue?_hexDigit (c.toNat / 16) (by omega)
    have hlow := hexValue?_hexDigit (c.toNat % 16) (by omega)
    have hcode : 16 * (c.toNat / 16) + c.toNat % 16 = c.toNat := Nat.div_add_mod c.toNat 16
    simp only [hescape, List.cons_append, List.nil_append, unescape?, hhigh, hlow, bind, Option.bind, pure, hcode,
      Char.ofNat_toNat]
  · simp [hescape, unescape?, hslash]

/-- The characters of a literal and what follows its closing quote. -/
theorem literal_append_inj {cs ds r s : List Char}
    (h : cs.flatMap escapeChar ++ '"' :: r = ds.flatMap escapeChar ++ '"' :: s) : cs = ds ∧ r = s := by
  induction cs generalizing ds with
  | nil =>
    cases ds with
    | nil => exact ⟨rfl, by simpa using h⟩
    | cons d ds =>
      have hread := congrArg unescape? h
      rw [List.flatMap_cons, List.append_assoc, unescape?_escapeChar] at hread
      cases hread
  | cons c cs ih =>
    cases ds with
    | nil =>
      have hread := congrArg unescape? h
      rw [List.flatMap_cons, List.append_assoc, unescape?_escapeChar] at hread
      cases hread
    | cons d ds =>
      have hread := congrArg unescape? h
      rw [List.flatMap_cons, List.flatMap_cons, List.append_assoc, List.append_assoc, unescape?_escapeChar,
        unescape?_escapeChar, Option.some.injEq, Prod.mk.injEq] at hread
      obtain ⟨rfl, hrest⟩ := hread
      obtain ⟨rfl, rfl⟩ := ih hrest
      exact ⟨rfl, rfl⟩

theorem toList_quote (s : String) : (quote s).toList = '"' :: (s.toList.flatMap escapeChar ++ ['"']) := by
  simp [quote]

theorem quote_append_inj {a b : String} {r s : List Char} (h : (quote a).toList ++ r = (quote b).toList ++ s) :
    a = b ∧ r = s := by
  simp only [toList_quote, List.cons_append, List.append_assoc, List.nil_append, List.cons.injEq, true_and] at h
  obtain ⟨hlist, rfl⟩ := literal_append_inj h
  exact ⟨String.toList_inj.mp hlist, rfl⟩

/-! ## Kinds of values -/

inductive Kind where
  | null
  | bool
  | number
  | string
  | array
  | object
deriving DecidableEq

def kind : Json → Kind
  | .null => .null
  | .bool _ => .bool
  | .num _ => .number
  | .str _ => .string
  | .arr _ => .array
  | .obj _ => .object

/-- The kind of the values whose texts begin with a character. -/
def Kind.ofChar? (c : Char) : Option Kind :=
  if c = 'n' then some .null
  else if c = 't' ∨ c = 'f' then some .bool
  else if c = '"' then some .string
  else if c = '[' then some .array
  else if c = '\x7b' then some .object
  else if Decimal.isNumeric c then some .number
  else none

/-- The text goes on with no character of numbers. -/
def Ends (rest : List Char) : Prop := ∀ c ∈ rest.head?, Decimal.isNumeric c = false

theorem exists_head_render (n : Number) : ∃ c cs, n.render.toList = c :: cs ∧ Kind.ofChar? c = some .number := by
  obtain ⟨d, hread, _⟩ := n.exists_writtenAs
  have hnumeric := n.isNumeric_of_mem_render
  cases h : n.render.toList with
  | nil =>
    rw [h] at hread
    cases hread
  | cons c cs =>
    have hc : Decimal.isNumeric c = true := hnumeric c (by simp [h])
    have hother : ∀ other, Decimal.isNumeric other = false → c ≠ other := by
      rintro other hother rfl
      simp [hother] at hc
    refine ⟨c, cs, rfl, ?_⟩
    simp [Kind.ofChar?, hc, hother 'n' rfl, hother 't' rfl, hother 'f' rfl, hother '"' rfl, hother '[' rfl,
      hother '\x7b' rfl]

/-- **The first character of a text tells the kind of the value.** -/
theorem exists_head_compact (j : Json) : ∃ c cs, j.compact.toList = c :: cs ∧ Kind.ofChar? c = some j.kind := by
  cases j with
  | null => exact ⟨'n', _, rfl, rfl⟩
  | bool b =>
    cases b with
    | true => exact ⟨'t', _, rfl, rfl⟩
    | false => exact ⟨'f', _, rfl, rfl⟩
  | num n =>
    rw [compact]
    exact exists_head_render n
  | str s =>
    rw [compact, toList_quote]
    exact ⟨'"', _, rfl, rfl⟩
  | arr items =>
    simp only [compact, String.toList_append]
    exact ⟨'[', _, rfl, rfl⟩
  | obj fields =>
    simp only [compact, String.toList_append]
    exact ⟨'\x7b', _, rfl, rfl⟩

theorem kind_eq_of_append {a b : Json} {r s : List Char} (h : a.compact.toList ++ r = b.compact.toList ++ s) :
    a.kind = b.kind := by
  obtain ⟨c, cs, hc, hkind⟩ := a.exists_head_compact
  obtain ⟨d, ds, hd, hkind'⟩ := b.exists_head_compact
  rw [hc, hd, List.cons_append, List.cons_append, List.cons.injEq] at h
  rw [h.1, hkind'] at hkind
  exact (Option.some.inj hkind).symm

/-! ## Containers -/

/-- The text of the items after the first, up to the closing mark. -/
def itemsTail : List Json → List Char
  | [] => [']']
  | item :: rest => ',' :: (item.compact.toList ++ itemsTail rest)

/-- The text of an array behind its opening mark. -/
def itemsBody : List Json → List Char
  | [] => [']']
  | item :: rest => item.compact.toList ++ itemsTail rest

/-- The text of the fields after the first, up to the closing mark. -/
def fieldsTail : List (String × Json) → List Char
  | [] => ['\x7d']
  | (key, value) :: rest => ',' :: ((quote key).toList ++ ':' :: (value.compact.toList ++ fieldsTail rest))

/-- The text of an object behind its opening mark. -/
def fieldsBody : List (String × Json) → List Char
  | [] => ['\x7d']
  | (key, value) :: rest => (quote key).toList ++ ':' :: (value.compact.toList ++ fieldsTail rest)

theorem ends_itemsTail (items : List Json) (rest : List Char) : Ends (itemsTail items ++ rest) := by
  cases items <;> simp [Ends, itemsTail, Decimal.isNumeric]

theorem ends_fieldsTail (fields : List (String × Json)) (rest : List Char) : Ends (fieldsTail fields ++ rest) := by
  cases fields <;> simp [Ends, fieldsTail, Decimal.isNumeric]

theorem toList_compact_arr (items : List Json) : (Json.arr items).compact.toList = '[' :: itemsBody items := by
  have hitems : ∀ (rest : List Json) (item : Json),
      (",".intercalate (compactItems (item :: rest)) ++ "]").toList = item.compact.toList ++ itemsTail rest := by
    intro rest
    induction rest with
    | nil => simp [compactItems, itemsTail]
    | cons next rest ih =>
      intro item
      rw [compactItems, compactItems, String.intercalate_cons_cons, ← compactItems, String.append_assoc,
        String.toList_append, ih]
      simp [itemsTail]
  rw [compact, String.append_assoc, String.toList_append]
  cases items with
  | nil => rfl
  | cons item rest =>
    rw [hitems, itemsBody]
    exact List.singleton_append

theorem toList_compact_obj (fields : List (String × Json)) :
    (Json.obj fields).compact.toList = '\x7b' :: fieldsBody fields := by
  have hfields : ∀ (rest : List (String × Json)) (key : String) (value : Json),
      (",".intercalate (compactFields ((key, value) :: rest)) ++ "\x7d").toList =
        (quote key).toList ++ ':' :: (value.compact.toList ++ fieldsTail rest) := by
    intro rest
    induction rest with
    | nil => simp [compactFields, fieldsTail]
    | cons next rest ih =>
      intro key value
      rw [compactFields, compactFields, String.intercalate_cons_cons, ← compactFields, String.append_assoc,
        String.toList_append, ih]
      simp [fieldsTail]
  rw [compact, String.append_assoc, String.toList_append]
  cases fields with
  | nil => rfl
  | cons field rest =>
    obtain ⟨key, value⟩ := field
    rw [hfields, fieldsBody]
    exact List.singleton_append

/-! ## Cutting a value off -/

/-- A value and an empty array do not begin alike. -/
theorem itemsBody_nil_ne (item : Json) (rest : List Json) (r s : List Char) :
    itemsBody [] ++ r ≠ itemsBody (item :: rest) ++ s := by
  intro h
  obtain ⟨c, cs, hc, hkind⟩ := item.exists_head_compact
  rw [itemsBody, itemsBody, hc] at h
  obtain ⟨rfl, _⟩ := List.cons.inj h
  cases hkind

mutual

/-- **A value can be cut off from what follows it in one way only.** -/
theorem compact_append_inj : ∀ (a b : Json) {r s : List Char}, Ends r → Ends s →
    a.compact.toList ++ r = b.compact.toList ++ s → a = b ∧ r = s
  | .null, b => by
    intro _ _ h
    have hkind := kind_eq_of_append h
    cases b with
    | null => exact ⟨rfl, List.append_cancel_left h⟩
    | _ => cases hkind
  | .bool x, b => by
    intro _ _ h
    have hkind := kind_eq_of_append h
    cases b with
    | bool y => cases x <;> cases y <;> simp_all [compact]
    | _ => cases hkind
  | .num m, b => by
    intro hr hs h
    have hkind := kind_eq_of_append h
    cases b with
    | num n =>
      rw [compact, compact] at h
      obtain ⟨hrender, rfl⟩ := append_inj_of_class m.isNumeric_of_mem_render n.isNumeric_of_mem_render hr hs h
      exact ⟨congrArg Json.num (Number.render_injective (String.toList_inj.mp hrender)), rfl⟩
    | _ => cases hkind
  | .str x, b => by
    intro _ _ h
    have hkind := kind_eq_of_append h
    cases b with
    | str y =>
      rw [compact, compact] at h
      obtain ⟨rfl, rfl⟩ := quote_append_inj h
      exact ⟨rfl, rfl⟩
    | _ => cases hkind
  | .arr xs, b => by
    intro _ _ h
    have hkind := kind_eq_of_append h
    cases b with
    | arr ys =>
      rw [toList_compact_arr, toList_compact_arr] at h
      obtain ⟨rfl, rfl⟩ := itemsBody_append_inj xs ys (List.cons.inj h).2
      exact ⟨rfl, rfl⟩
    | _ => cases hkind
  | .obj xs, b => by
    intro _ _ h
    have hkind := kind_eq_of_append h
    cases b with
    | obj ys =>
      rw [toList_compact_obj, toList_compact_obj] at h
      obtain ⟨rfl, rfl⟩ := fieldsBody_append_inj xs ys (List.cons.inj h).2
      exact ⟨rfl, rfl⟩
    | _ => cases hkind

theorem itemsTail_append_inj : ∀ (xs ys : List Json) {r s : List Char},
    itemsTail xs ++ r = itemsTail ys ++ s → xs = ys ∧ r = s
  | [], [] => by
    intro h
    exact ⟨rfl, (List.cons.inj h).2⟩
  | [], _ :: _ => by
    intro h
    simp [itemsTail] at h
  | _ :: _, [] => by
    intro h
    simp [itemsTail] at h
  | x :: xs, y :: ys => by
    intro h
    rw [itemsTail, itemsTail, List.cons_append, List.cons_append, List.append_assoc, List.append_assoc] at h
    obtain ⟨rfl, hrest⟩ := compact_append_inj x y (ends_itemsTail _ _) (ends_itemsTail _ _) (List.cons.inj h).2
    obtain ⟨rfl, rfl⟩ := itemsTail_append_inj xs ys hrest
    exact ⟨rfl, rfl⟩

theorem itemsBody_append_inj : ∀ (xs ys : List Json) {r s : List Char},
    itemsBody xs ++ r = itemsBody ys ++ s → xs = ys ∧ r = s
  | [], [] => by
    intro h
    exact ⟨rfl, (List.cons.inj h).2⟩
  | [], y :: ys => by
    intro h
    exact absurd h (itemsBody_nil_ne y ys _ _)
  | x :: xs, [] => by
    intro h
    exact absurd h.symm (itemsBody_nil_ne x xs _ _)
  | x :: xs, y :: ys => by
    intro h
    rw [itemsBody, itemsBody, List.append_assoc, List.append_assoc] at h
    obtain ⟨rfl, hrest⟩ := compact_append_inj x y (ends_itemsTail _ _) (ends_itemsTail _ _) h
    obtain ⟨rfl, rfl⟩ := itemsTail_append_inj xs ys hrest
    exact ⟨rfl, rfl⟩

theorem fieldsTail_append_inj : ∀ (xs ys : List (String × Json)) {r s : List Char},
    fieldsTail xs ++ r = fieldsTail ys ++ s → xs = ys ∧ r = s
  | [], [] => by
    intro h
    exact ⟨rfl, (List.cons.inj h).2⟩
  | [], _ :: _ => by
    intro h
    simp [fieldsTail] at h
  | _ :: _, [] => by
    intro h
    simp [fieldsTail] at h
  | (k, x) :: xs, (l, y) :: ys => by
    intro h
    simp only [fieldsTail, List.cons_append, List.append_assoc] at h
    obtain ⟨rfl, hvalue⟩ := quote_append_inj (List.cons.inj h).2
    obtain ⟨rfl, hrest⟩ := compact_append_inj x y (ends_fieldsTail _ _) (ends_fieldsTail _ _) (List.cons.inj hvalue).2
    obtain ⟨rfl, rfl⟩ := fieldsTail_append_inj xs ys hrest
    exact ⟨rfl, rfl⟩

theorem fieldsBody_append_inj : ∀ (xs ys : List (String × Json)) {r s : List Char},
    fieldsBody xs ++ r = fieldsBody ys ++ s → xs = ys ∧ r = s
  | [], [] => by
    intro h
    exact ⟨rfl, (List.cons.inj h).2⟩
  | [], _ :: _ => by
    intro h
    simp [fieldsBody, toList_quote] at h
  | _ :: _, [] => by
    intro h
    simp [fieldsBody, toList_quote] at h
  | (k, x) :: xs, (l, y) :: ys => by
    intro h
    simp only [fieldsBody, List.cons_append, List.append_assoc] at h
    obtain ⟨rfl, hvalue⟩ := quote_append_inj h
    obtain ⟨rfl, hrest⟩ := compact_append_inj x y (ends_fieldsTail _ _) (ends_fieldsTail _ _) (List.cons.inj hvalue).2
    obtain ⟨rfl, rfl⟩ := fieldsTail_append_inj xs ys hrest
    exact ⟨rfl, rfl⟩

end

theorem compact_injective : Function.Injective compact := by
  intro a b h
  have hends : Ends [] := by simp [Ends]
  exact (compact_append_inj a b hends hends (by rw [h])).1

/-! ## Line ends and blanks -/

theorem newline_notMem_escapeChar (c : Char) : '\n' ∉ escapeChar c := by
  have hdigit : ∀ n, n < 16 → '\n' ≠ hexDigit n := by decide
  rcases escapeChar_cases c with ⟨d, hescape, _, _, hnewline⟩ | ⟨hlt, hescape⟩ | ⟨hescape, _, _, hnewline⟩
  · simp [hescape, hnewline.symm]
  · have hhigh := hdigit (c.toNat / 16) (by omega)
    have hlow := hdigit (c.toNat % 16) (by omega)
    simp [hescape, hhigh, hlow]
  · simpa [hescape] using hnewline.symm

theorem newline_notMem_quote (s : String) : '\n' ∉ (quote s).toList := by
  simp [toList_quote, newline_notMem_escapeChar]

theorem itemsBody_subset (items : List Json) : itemsBody items ⊆ itemsTail items := by
  cases items with
  | nil => exact List.Subset.refl _
  | cons item rest => exact List.subset_cons_self _ _

theorem fieldsBody_subset (fields : List (String × Json)) : fieldsBody fields ⊆ fieldsTail fields := by
  cases fields with
  | nil => exact List.Subset.refl _
  | cons field rest => exact List.subset_cons_self _ _

mutual

theorem newline_notMem_compact : ∀ j : Json, '\n' ∉ j.compact.toList
  | .null => by decide
  | .bool true => by decide
  | .bool false => by decide
  | .num n => by
    intro h
    rw [compact] at h
    cases n.isNumeric_of_mem_render _ h
  | .str s => by
    rw [compact]
    exact newline_notMem_quote s
  | .arr items => by
    have hitems : '\n' ∉ itemsBody items := fun h => newline_notMem_itemsTail items (itemsBody_subset items h)
    rw [toList_compact_arr]
    simp [hitems]
  | .obj fields => by
    have hfields : '\n' ∉ fieldsBody fields := fun h => newline_notMem_fieldsTail fields (fieldsBody_subset fields h)
    rw [toList_compact_obj]
    simp [hfields]

theorem newline_notMem_itemsTail : ∀ items : List Json, '\n' ∉ itemsTail items
  | [] => by decide
  | item :: rest => by
    simp [itemsTail, newline_notMem_compact item, newline_notMem_itemsTail rest]

theorem newline_notMem_fieldsTail : ∀ fields : List (String × Json), '\n' ∉ fieldsTail fields
  | [] => by decide
  | (key, value) :: rest => by
    simp [fieldsTail, newline_notMem_quote key, newline_notMem_compact value, newline_notMem_fieldsTail rest]

end

theorem isBlank_of_isNumeric {c : Char} (h : Decimal.isNumeric c = true) : Text.isBlank c = false := by
  simp only [Decimal.isNumeric, Bool.or_eq_true, decide_eq_true_eq] at h
  rcases h with (((hdigit | rfl) | rfl) | rfl) | rfl
  · have hlow : 48 ≤ c.toNat ∧ c.toNat ≤ 57 := by simpa [Char.isDigit, UInt32.le_iff_toNat_le] using hdigit
    simp only [Text.isBlank]
    grind
  · rfl
  · rfl
  · rfl
  · rfl

theorem endsFilled_itemsTail (items : List Json) : Text.EndsFilled (itemsTail items) := by
  induction items with
  | nil => exact ⟨']', rfl, rfl⟩
  | cons item rest ih => exact (ih.append item.compact.toList).cons ','

theorem endsFilled_fieldsTail (fields : List (String × Json)) : Text.EndsFilled (fieldsTail fields) := by
  induction fields with
  | nil => exact ⟨'\x7d', rfl, rfl⟩
  | cons field rest ih =>
    obtain ⟨key, value⟩ := field
    rw [fieldsTail]
    have hvalue := (ih.append value.compact.toList).cons ':'
    exact (hvalue.append (quote key).toList).cons ','

theorem endsFilled_compact (j : Json) : Text.EndsFilled j.compact.toList := by
  cases j with
  | null => exact ⟨'l', rfl, rfl⟩
  | bool b => cases b <;> exact ⟨'e', rfl, rfl⟩
  | num n =>
    obtain ⟨c, cs, hrender, _⟩ := exists_head_render n
    have hlast : (c :: cs).getLast (List.cons_ne_nil c cs) ∈ n.render.toList := by
      rw [hrender]
      exact List.getLast_mem _
    rw [compact, hrender]
    exact ⟨_, List.getLast?_eq_some_getLast _, isBlank_of_isNumeric (n.isNumeric_of_mem_render _ hlast)⟩
  | str s =>
    rw [compact, toList_quote]
    exact (Text.EndsFilled.append ⟨'"', rfl, rfl⟩ (s.toList.flatMap escapeChar)).cons '"'
  | arr items =>
    rw [toList_compact_arr]
    cases items with
    | nil => exact ⟨']', rfl, rfl⟩
    | cons item rest => exact ((endsFilled_itemsTail rest).append item.compact.toList).cons '['
  | obj fields =>
    rw [toList_compact_obj]
    cases fields with
    | nil => exact ⟨'\x7d', rfl, rfl⟩
    | cons field rest =>
      obtain ⟨key, value⟩ := field
      rw [fieldsBody]
      have hvalue := ((endsFilled_fieldsTail rest).append value.compact.toList).cons ':'
      exact (hvalue.append (quote key).toList).cons '\x7b'

end Json

end DocQuery
