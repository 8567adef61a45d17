import DocQuery.Json.Printer
import DocQuery.Proofs.Numbers.Intervals

/-!
# Numbers in texts

The text of a number is read as a decimal that says all about it (`Number.WrittenAs`): an integer without point and
exponent, and a double by a decimal that rounds to it. `exists_writtenAs` reads each layout of the digits with the
reader of the library, and follows the point: wherever it is put, the digits and the exponent stand for the same number.
A decimal is the text of one number only (`WrittenAs.unique`), so different numbers have different texts
(`Number.render_injective`).
-/

namespace DocQuery

theorem toList_pushn (c : Char) (n : Nat) : ("".pushn c n).toList = List.replicate n c := by
  rw [String.pushn_eq_repeat_push]
  induction n with
  | zero => rfl
  | succ n ih => rw [Nat.repeat, String.toList_push, ih, List.replicate_succ']

theorem toList_toString (n : Nat) : (toString n).toList = Nat.toDigits 10 n := Nat.toList_repr

namespace Decimal

/-! ## Digits -/

theorem natOfDigits_map (cs : List Char) : natOfDigits (cs.map digitValue) = Nat.ofDigitChars 10 cs 0 := by
  rw [natOfDigits, List.foldl_map, Nat.ofDigitChars_eq_foldl]
  rfl

theorem eq_of_digitValue {c : Char} (hc : c.isDigit = true) (h : digitValue c = 0) : c = '0' := by
  have hbounds := Char.isDigit_iff_toNat.mp hc
  apply Char.toNat_inj.mp
  simp only [digitValue] at h
  omega

theorem eq_zero_of_head_toDigits {n : Nat} (h : (Nat.toDigits 10 n).head? = some '0') : n = 0 := by
  induction n using Nat.strongRecOn with
  | ind n ih =>
    rw [Nat.toDigits_eq_if (by decide)] at h
    split at h
    · rename_i hlt
      have hall : ∀ m, m < 10 → [m.digitChar].head? = some '0' → m = 0 := by decide
      exact hall n hlt h
    · obtain ⟨c, cs, hcs⟩ := List.exists_cons_of_ne_nil (Nat.toDigits_ne_nil (n := n / 10) (b := 10))
      have := ih (n / 10) (by omega) (by simpa [hcs] using h)
      omega

theorem isDigit_of_mem_toDigits (n : Nat) : ∀ c ∈ Nat.toDigits 10 n, c.isDigit = true :=
  fun _ hc => Nat.isDigit_of_mem_toDigits (by decide) (by decide) hc

theorem isDigit_of_mem_drop (n k : Nat) : ∀ c ∈ (Nat.toDigits 10 n).drop k, c.isDigit = true :=
  fun c hc => isDigit_of_mem_toDigits n c (List.mem_of_mem_drop hc)

theorem isDigit_of_mem_zeros (n : Nat) : ∀ c ∈ List.replicate n '0', c.isDigit = true := by
  intro c hc
  rw [List.eq_of_mem_replicate hc]
  rfl

/-! ## Reading a layout -/

/-- The text goes on with no digit. -/
def NoDigit (rest : List Char) : Prop := ∀ c ∈ rest.head?, c.isDigit = false

theorem noDigit_nil : NoDigit [] := by simp [NoDigit]

/-- Digits that can stand before the point: at least one, and no zero in front of another. -/
structure Whole (ds : List Char) : Prop where
  digits : ∀ c ∈ ds, c.isDigit = true
  nonempty : ds ≠ []
  lead : ds.head? = some '0' → ds = ['0']

/-- The sign in front of a number. -/
def sign (negative : Bool) : List Char := if negative then ['-'] else []

variable {ds fs rest tail : List Char} {negative : Bool}

theorem spanDigits_append (hd : ∀ c ∈ ds, c.isDigit = true) (hr : NoDigit rest) :
    spanDigits (ds ++ rest) = (ds.map digitValue, rest) := by
  have hrest : rest.takeWhile Char.isDigit = [] ∧ rest.dropWhile Char.isDigit = rest := by
    cases rest with
    | nil => exact ⟨rfl, rfl⟩
    | cons c rest => simp [hr c rfl]
  rw [spanDigits, List.takeWhile_append_of_pos hd, List.dropWhile_append_of_pos hd, hrest.1, hrest.2, List.append_nil]

theorem ofChars?_whole (hds : Whole ds) (hr : NoDigit rest) :
    ofChars? (sign negative ++ (ds ++ rest)) = readFraction? negative (ds.map digitValue) rest := by
  obtain ⟨c, cs, rfl⟩ := List.exists_cons_of_ne_nil hds.nonempty
  have hspan : spanDigits (c :: (cs ++ rest)) = (digitValue c :: cs.map digitValue, rest) :=
    spanDigits_append hds.digits hr
  have hc : c.isDigit = true := hds.digits c (by simp)
  -- A minus is the sign, and a zero that is the first digit is the only one.
  have hminus : c ≠ '-' := by
    rintro rfl
    revert hc
    decide
  cases cs with
  | nil =>
    rw [List.nil_append] at hspan
    cases negative <;> simp [ofChars?, sign, hminus, hspan]
  | cons d ds' =>
    have hzero : digitValue c ≠ 0 := fun h => by
      have hlead := hds.lead (by simp [eq_of_digitValue hc h])
      simp at hlead
    rw [List.cons_append, List.map_cons] at hspan
    cases negative <;> simp [ofChars?, sign, hminus, hspan, hzero]

theorem readFraction?_point (hf : ∀ c ∈ fs, c.isDigit = true) (hne : fs ≠ []) (ht : NoDigit tail) (whole : List Nat) :
    readFraction? negative whole ('.' :: (fs ++ tail)) =
      (readTail? tail).map (⟨negative, whole, some (fs.map digitValue), ·⟩) := by
  obtain ⟨c, cs, rfl⟩ := List.exists_cons_of_ne_nil hne
  simp only [readFraction?, spanDigits_append hf ht, List.map_cons]

theorem readFraction?_tail {k : Option Int} (hk : readTail? tail = some k) (whole : List Nat) :
    readFraction? negative whole tail = some ⟨negative, whole, none, k⟩ := by
  unfold readFraction?
  split
  · simp [readTail?] at hk
  · rw [hk]
    rfl

theorem readTail?_exponent (e : Int) :
    readTail? ('e' :: (if e < 0 then '-' else '+') :: Nat.toDigits 10 e.natAbs) = some (some e) := by
  have hspan := spanDigits_append (isDigit_of_mem_toDigits e.natAbs) noDigit_nil
  rw [List.append_nil] at hspan
  have hvalue : natOfDigits ((Nat.toDigits 10 e.natAbs).map digitValue) = e.natAbs := by
    rw [natOfDigits_map, Nat.ofDigitChars_ten_toDigits]
  obtain ⟨c, cs, hcs⟩ := List.exists_cons_of_ne_nil (Nat.toDigits_ne_nil (n := e.natAbs) (b := 10))
  rw [hcs, List.map_cons] at hvalue hspan
  rw [← hcs] at hspan
  rcases Int.lt_or_le e 0 with he | he
  · simp only [readTail?, readExponent?, he, if_true, hspan, true_or, Option.map_some, hvalue]
    rw [Int.ofNat_natAbs_of_nonpos he.le, Int.neg_neg]
  · simp only [readTail?, readExponent?, Int.not_lt.mpr he, if_true, if_false, hspan, true_or, Option.map_some, hvalue,
      Bool.false_eq_true]
    rw [Int.natAbs_of_nonneg he]

/-! ## Layouts of a number -/

/-- The digits of a decimal without the point, and the exponent of the last one. -/
def exact (d : Decimal) : ShortDecimal :=
  ⟨natOfDigits (d.whole ++ d.fraction.getD []), d.exponent.getD 0 - (d.fraction.getD []).length⟩

/-- The characters of numbers. -/
def isNumeric (c : Char) : Bool := c.isDigit || c = '-' || c = '+' || c = '.' || c = 'e'

/-- The text is that of a decimal with a point or an exponent, with a sign and an absolute value. -/
def Spells (negative : Bool) (v : ℚ) (cs : List Char) : Prop :=
  (∀ c ∈ cs, isNumeric c = true) ∧ ∃ d, ofChars? cs = some d ∧ d.negative = negative ∧
    (d.fraction.isSome = true ∨ d.exponent.isSome = true) ∧ d.exact.value = v

theorem isNumeric_of_isDigit {c : Char} (h : c.isDigit = true) : isNumeric c = true := by simp [isNumeric, h]

theorem isNumeric_of_mem_sign : ∀ c ∈ sign negative, isNumeric c = true := by cases negative <;> simp [sign, isNumeric]

/-- The point and the digits behind it, if there are any. -/
def pointed (fs : List Char) : List Char := if fs.isEmpty then [] else '.' :: fs

theorem spells_layout {k : Option Int} {v : ℚ} {cs : List Char} (hds : Whole ds) (hf : ∀ c ∈ fs, c.isDigit = true)
    (hk : readTail? tail = some k) (ht : NoDigit tail) (htail : ∀ c ∈ tail, isNumeric c = true)
    (hsome : fs ≠ [] ∨ k.isSome = true)
    (hv : v = Nat.ofDigitChars 10 (ds ++ fs) 0 * 10 ^ (k.getD 0 - fs.length)) (hcs : cs = ds ++ (pointed fs ++ tail)) :
    Spells negative v (sign negative ++ cs) := by
  subst hcs hv
  have hnumeric : ∀ c ∈ sign negative ++ (ds ++ (pointed fs ++ tail)), isNumeric c = true := by
    have hpointed : ∀ c ∈ pointed fs, isNumeric c = true := by
      unfold pointed
      split
      · simp
      · exact List.forall_mem_cons.mpr ⟨rfl, fun c hc => isNumeric_of_isDigit (hf c hc)⟩
    simp only [List.forall_mem_append]
    exact ⟨isNumeric_of_mem_sign, fun c hc => isNumeric_of_isDigit (hds.digits c hc), hpointed, htail⟩
  refine ⟨hnumeric, ?_⟩
  cases fs with
  | nil =>
    refine ⟨⟨negative, ds.map digitValue, none, k⟩, ?_, rfl, .inr (by simpa using hsome), ?_⟩
    · rw [pointed, List.isEmpty_nil, if_pos rfl, List.nil_append, ofChars?_whole hds ht, readFraction?_tail hk]
    · simp [ShortDecimal.value, exact, natOfDigits_map]
  | cons f fs =>
    refine ⟨⟨negative, ds.map digitValue, some ((f :: fs).map digitValue), k⟩, ?_, rfl, .inl rfl, ?_⟩
    · rw [ofChars?_whole hds (by simp [pointed, NoDigit]), pointed]
      simp only [List.isEmpty_cons, Bool.false_eq_true, if_false, List.cons_append]
      rw [← List.cons_append, readFraction?_point hf (by simp) ht, hk]
      rfl
    · simp only [ShortDecimal.value, exact, Option.getD_some, ← List.map_append, natOfDigits_map, List.length_map]

theorem whole_toDigits (n : Nat) : Whole (Nat.toDigits 10 n) where
  digits := isDigit_of_mem_toDigits n
  nonempty := Nat.toDigits_ne_nil
  lead h := by rw [eq_zero_of_head_toDigits h, Nat.toDigits_zero]

/-- Digits behind a number, which is not zero unless there are none. -/
theorem Whole.append (hds : Whole ds) (hf : ∀ c ∈ fs, c.isDigit = true) (hzero : ds = ['0'] → fs = []) :
    Whole (ds ++ fs) where
  digits := List.forall_mem_append.mpr ⟨hds.digits, hf⟩
  nonempty := by simp [hds.nonempty]
  lead h := by
    obtain ⟨c, cs, rfl⟩ := List.exists_cons_of_ne_nil hds.nonempty
    have hlead := hds.lead (by simpa using h)
    rw [hzero hlead, hlead]
    rfl

theorem Whole.take (hds : Whole ds) {k : Nat} (hk : 0 < k) : Whole (ds.take k) where
  digits c hc := hds.digits c (List.mem_of_mem_take hc)
  nonempty h := by
    rcases List.take_eq_nil_iff.mp h with h | h
    · omega
    · exact hds.nonempty h
  lead h := by
    rw [List.head?_take, if_neg (by omega)] at h
    rw [hds.lead h, List.take_of_length_le hk]

/-- An integral double has zeros up to the point, and one behind it. -/
theorem spells_integral {n e : Nat} (hzero : n = 0 → e = 0) :
    Spells negative (n * 10 ^ e) (sign negative ++ (Nat.toDigits 10 n ++ List.replicate e '0' ++ ['.', '0'])) := by
  have hwhole : Whole (Nat.toDigits 10 n ++ List.replicate e '0') := by
    refine (whole_toDigits n).append (isDigit_of_mem_zeros e) fun h => ?_
    rw [hzero (eq_zero_of_head_toDigits (by rw [h]; rfl)), List.replicate_zero]
  refine spells_layout hwhole (isDigit_of_mem_zeros 1) rfl noDigit_nil (by simp) (.inl (by simp)) ?_ ?_
  · have hdigits : Nat.ofDigitChars 10 (Nat.toDigits 10 n ++ List.replicate e '0' ++ List.replicate 1 '0') 0 =
        n * 10 ^ e * 10 := by
      simp only [Nat.ofDigitChars_append, Nat.ofDigitChars_ten_toDigits, Nat.ofDigitChars_replicate_zero]
      ring
    rw [hdigits]
    simp
  · simp [pointed]

/-- The point among the digits. -/
theorem spells_split {n k : Nat} (hk : 0 < k) (hlength : k < (Nat.toDigits 10 n).length) :
    Spells negative (n * 10 ^ (k - (Nat.toDigits 10 n).length : ℤ))
      (sign negative ++ ((Nat.toDigits 10 n).take k ++ '.' :: (Nat.toDigits 10 n).drop k)) := by
  refine spells_layout ((whole_toDigits n).take hk) (isDigit_of_mem_drop n k) rfl noDigit_nil (by simp)
    (.inl (by simpa using hlength)) ?_ ?_
  · rw [List.take_append_drop, Nat.ofDigitChars_ten_toDigits, List.length_drop, Nat.cast_sub hlength.le]
    simp
  · simp [pointed, hlength]

/-- The point before all digits, with zeros between. -/
theorem spells_below_one (n k : Nat) :
    Spells negative (n * 10 ^ (-(k + (Nat.toDigits 10 n).length) : ℤ))
      (sign negative ++ ('0' :: '.' :: (List.replicate k '0' ++ Nat.toDigits 10 n))) := by
  have hfraction := List.forall_mem_append.mpr ⟨isDigit_of_mem_zeros k, isDigit_of_mem_toDigits n⟩
  refine spells_layout (whole_toDigits 0) hfraction rfl noDigit_nil (by simp)
    (.inl (by simp [Nat.toDigits_ne_nil])) ?_ ?_
  · have hdigits : Nat.ofDigitChars 10 (Nat.toDigits 10 0 ++ (List.replicate k '0' ++ Nat.toDigits 10 n)) 0 = n := by
      simp only [Nat.ofDigitChars_append, Nat.ofDigitChars_ten_toDigits, Nat.ofDigitChars_replicate_zero, Nat.mul_zero]
    rw [hdigits]
    simp
  · simp [pointed, Nat.toDigits_ne_nil]

theorem spells_scientific (n : Nat) (e : Int) :
    Spells negative (n * 10 ^ (e - ((Nat.toDigits 10 n).length - 1)))
      (sign negative ++ (DecimalFormat.scientific (toString n) e).toList) := by
  have htail : ∀ c ∈ 'e' :: (if e < 0 then '-' else '+') :: Nat.toDigits 10 e.natAbs, isNumeric c = true := by
    refine List.forall_mem_cons.mpr ⟨rfl, List.forall_mem_cons.mpr ⟨?_, fun c hc => ?_⟩⟩
    · split <;> rfl
    · exact isNumeric_of_isDigit (isDigit_of_mem_toDigits _ c hc)
  refine spells_layout ((whole_toDigits n).take Nat.one_pos) (isDigit_of_mem_drop n 1) (readTail?_exponent e)
    (by simp [NoDigit]) htail (.inr rfl) ?_ ?_
  · rw [List.take_append_drop, Nat.ofDigitChars_ten_toDigits, List.length_drop,
      Nat.cast_sub Nat.length_toDigits_pos]
    simp
  · simp only [DecimalFormat.scientific, toList_toString, String.toList_append, String.toList_ofList, pointed]
    have hsign : (if e < 0 then "-" else "+").toList = [if e < 0 then '-' else '+'] := by split <;> rfl
    rw [hsign]
    cases (Nat.toDigits 10 n).drop 1 <;> simp

/-- Wherever the point is put among the digits of a number, the text spells the number. -/
theorem spells_positional {n : Nat} {e : Int} (hzero : n = 0 → e = 0) :
    Spells negative (n * 10 ^ e) (sign negative ++ (DecimalFormat.positional (toString n) e).toList) := by
  have hlength : (toString n).length = (Nat.toDigits 10 n).length := by rw [← String.length_toList, toList_toString]
  unfold DecimalFormat.positional
  simp only [hlength]
  split
  · rename_i he
    obtain ⟨k, rfl⟩ := Int.eq_ofNat_of_zero_le he
    simpa [toList_toString, toList_pushn] using spells_integral (n := n) (e := k) (by simpa using hzero)
  · obtain ⟨p, hp, rfl⟩ : ∃ p : ℕ, 0 < p ∧ e = -(p : ℤ) := ⟨(-e).toNat, by omega, by omega⟩
    have hplaces : (-(-(p : ℤ))).toNat = p := by omega
    simp only [hplaces]
    split
    · rename_i hlt
      have hexponent : (-(p : ℤ)) = ((Nat.toDigits 10 n).length - p : ℕ) - (Nat.toDigits 10 n).length := by omega
      rw [hexponent]
      simpa [toList_toString] using
        spells_split (n := n) (k := (Nat.toDigits 10 n).length - p) (by omega) (by omega)
    · have hexponent : (-(p : ℤ)) = -((p - (Nat.toDigits 10 n).length : ℕ) + (Nat.toDigits 10 n).length) := by omega
      rw [hexponent]
      simpa [toList_toString, toList_pushn] using spells_below_one n (p - (Nat.toDigits 10 n).length)

end Decimal

/-! ## Numbers -/

open Decimal

/-- **The text of a double spells its shortest decimal**, in any format. -/
theorem DecimalFormat.spells_render (f : DecimalFormat) (x : Double) :
    Spells x.negative x.shortest.value (f.render x).toList := by
  have hsign : ∀ text : String,
      (if x.negative then "-" ++ text else text).toList = sign x.negative ++ text.toList := fun text => by
    cases x.negative <;> simp [sign]
  have hzero : x.shortest.digits = 0 → x.shortest.exponent = 0 := Double.exponent_shortest
  simp only [render, hsign]
  generalize x.shortest = short at hzero ⊢
  obtain ⟨n, e⟩ := short
  have hlength : (toString n).length = (Nat.toDigits 10 n).length := by rw [← String.length_toList, toList_toString]
  split
  · exact spells_positional hzero
  · have hexponent : e = e + (toString n).length - 1 - ((Nat.toDigits 10 n).length - 1) := by omega
    rw [ShortDecimal.value]
    conv in (10 : ℚ) ^ _ => rw [hexponent]
    exact spells_scientific n _

namespace Number

/-- The decimal is the text of the number. -/
def WrittenAs : Number → Decimal → Prop
  | .int n, d =>
    d.fraction = none ∧ d.exponent = none ∧ d.negative = decide (n < 0) ∧ natOfDigits d.whole = n.natAbs
  | .float x, d =>
    (d.fraction.isSome = true ∨ d.exponent.isSome = true) ∧ d.negative = x.negative ∧ x.Rounds d.exact.value

theorem WrittenAs.unique {a b : Number} {d : Decimal} (ha : a.WrittenAs d) (hb : b.WrittenAs d) : a = b := by
  cases a with
  | int m =>
    obtain ⟨hfraction, hexponent, hsign, hdigits⟩ := ha
    cases b with
    | int n =>
      obtain ⟨_, _, hsign', hdigits'⟩ := hb
      have hnegative : m < 0 ↔ n < 0 := by simpa using hsign.symm.trans hsign'
      congr 1
      omega
    | float y => simp [WrittenAs, hfraction, hexponent] at hb
  | float x =>
    obtain ⟨hmark, hsign, hrounds⟩ := ha
    cases b with
    | int n =>
      obtain ⟨hfraction, hexponent, _⟩ := hb
      simp [hfraction, hexponent] at hmark
    | float y =>
      obtain ⟨_, hsign', hrounds'⟩ := hb
      obtain ⟨negative, bits, _⟩ := x
      obtain ⟨negative', bits', _⟩ := y
      have hbits : bits = bits' := hrounds.bits_eq hrounds'
      have hnegative : negative = negative' := hsign.symm.trans hsign'
      simp [hbits, hnegative]

theorem toList_render_int (n : Int) :
    (Number.int n).render.toList = sign (decide (n < 0)) ++ Nat.toDigits 10 n.natAbs := by
  rw [render, Int.toString_eq_repr, Int.repr_eq_if]
  split
  · rename_i h
    have habs : n.toNat = n.natAbs := by omega
    simp [sign, Int.not_lt.mpr h, habs]
  · rename_i h
    have habs : (-n).toNat = n.natAbs := by omega
    simp [sign, Int.not_le.mp h, habs]

/-- **The text of a number is read as a decimal that it is written as.** -/
theorem exists_writtenAs (a : Number) : ∃ d, ofChars? a.render.toList = some d ∧ a.WrittenAs d := by
  cases a with
  | int n =>
    refine ⟨⟨decide (n < 0), (Nat.toDigits 10 n.natAbs).map digitValue, none, none⟩, ?_, rfl, rfl, rfl, ?_⟩
    · have hread : ofChars? (sign (decide (n < 0)) ++ (Nat.toDigits 10 n.natAbs ++ [])) = _ :=
        ofChars?_whole (whole_toDigits n.natAbs) noDigit_nil
      rw [List.append_nil] at hread
      rw [toList_render_int, hread]
      rfl
    · rw [natOfDigits_map, Nat.ofDigitChars_ten_toDigits]
  | float x =>
    obtain ⟨_, d, hread, hsign, hmark, hvalue⟩ := Json.numberFormat.spells_render x
    exact ⟨d, hread, hmark, hsign, hvalue ▸ x.rounds_shortest⟩

theorem render_injective : Function.Injective render := by
  intro a b h
  obtain ⟨d, hread, ha⟩ := exists_writtenAs a
  obtain ⟨d', hread', hb⟩ := exists_writtenAs b
  rw [h, hread', Option.some.injEq] at hread
  exact ha.unique (hread ▸ hb)

theorem isNumeric_of_mem_render (a : Number) : ∀ c ∈ a.render.toList, isNumeric c = true := by
  cases a with
  | int n =>
    rw [toList_render_int]
    exact List.forall_mem_append.mpr
      ⟨isNumeric_of_mem_sign, fun c hc => isNumeric_of_isDigit (isDigit_of_mem_toDigits _ c hc)⟩
  | float x => exact (Json.numberFormat.spells_render x).1

end Number

end DocQuery
