/-!
# Blank characters

The characters that count as white space in every script.
-/

namespace DocQuery.Text

def isBlank (c : Char) : Bool :=
  let n := c.toNat
  (0x09 ≤ n && n ≤ 0x0d) || n == 0x20 || n == 0x85 || n == 0xa0 || n == 0x1680 || (0x2000 ≤ n && n ≤ 0x200a)
    || n == 0x2028 || n == 0x2029 || n == 0x202f || n == 0x205f || n == 0x3000

/-- Whether a text holds nothing but blanks. -/
def allBlank (s : String) : Bool := s.toList.all isBlank

/-- A text without the blanks at its end. -/
def trimEnd (s : String) : String := String.ofList (s.toList.reverse.dropWhile isBlank).reverse

/-- The last character of a text is no blank. -/
def EndsFilled (cs : List Char) : Prop := ∃ c ∈ cs.getLast?, isBlank c = false

theorem EndsFilled.append {cs : List Char} (h : EndsFilled cs) (before : List Char) : EndsFilled (before ++ cs) := by
  obtain ⟨c, hc, hblank⟩ := h
  exact ⟨c, by simp [List.getLast?_append, Option.mem_def.mp hc], hblank⟩

theorem EndsFilled.cons {cs : List Char} (h : EndsFilled cs) (c : Char) : EndsFilled (c :: cs) := h.append [c]

/-- Only the blanks behind the last character that is none are cut off. -/
theorem toList_trimEnd {s : String} {cs blanks : List Char} (hs : s.toList = cs ++ blanks) (hcs : EndsFilled cs)
    (hblanks : ∀ c ∈ blanks, isBlank c = true) : (trimEnd s).toList = cs := by
  obtain ⟨c, hc, hblank⟩ := hcs
  obtain ⟨before, rfl⟩ := List.getLast?_eq_some_iff.mp hc
  have hreverse : ∀ c ∈ blanks.reverse, isBlank c = true := fun c h => hblanks c (List.mem_reverse.mp h)
  rw [trimEnd, hs, List.reverse_append, List.dropWhile_append_of_pos hreverse]
  simp [hblank]

end DocQuery.Text
