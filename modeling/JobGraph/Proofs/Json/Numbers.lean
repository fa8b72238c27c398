import JobGraph.Json.Token
import Mathlib.Data.List.Basic
import Mathlib.Data.List.TakeDrop
import Mathlib.Data.List.TakeWhile

/-!
# Numbers as they are written

An integer of 64 bits is written with digits that spell it again.  A double is written as a number
or, when it is not finite, as `null`; what the number spells is another matter, since reading
rounds once more.

All characters of a number are number parts, so the scanner reads them as one token.
-/

namespace JobGraph

/-! ## Digits -/

namespace Decimal

theorem digit?_digitChar {d : Nat} (h : d < 10) : digit? (Nat.digitChar d) = some d := by
  revert d
  decide

theorem ofDigits_concat (cs : List Char) (c : Char) :
    ofDigits (cs ++ [c]) = ofDigits cs * 10 + (digit? c).getD 0 := by
  rw [ofDigits, List.foldl_append, ofDigits]
  rfl

/-- A natural number is what its digits spell. -/
theorem ofDigits_toDigits (n : Nat) : ofDigits (Nat.toDigits 10 n) = n := by
  induction n using Nat.strongRecOn with
  | ind n ih =>
      rw [Nat.toDigits_eq_if (by decide)]
      split
      · rename_i hlt
        have hdigit := ofDigits_concat [] (Nat.digitChar n)
        rwa [digit?_digitChar hlt, List.nil_append, Option.getD_some,
          show ofDigits [] = 0 from rfl, Nat.zero_mul, Nat.zero_add] at hdigit
      · rename_i hle
        rw [ofDigits_concat, ih (n / 10) (by omega), digit?_digitChar (Nat.mod_lt n (by decide)),
          Option.getD_some]
        omega

theorem isDigit_of_mem_toDigits {n : Nat} {c : Char} (h : c ∈ Nat.toDigits 10 n) :
    isDigit c = true := by
  induction n using Nat.strongRecOn with
  | ind n ih =>
      rw [Nat.toDigits_eq_if (by decide)] at h
      split at h
      · rename_i hlt
        rw [List.mem_singleton.1 h, isDigit, digit?_digitChar hlt]
        rfl
      · rename_i hle
        rcases List.mem_append.1 h with hfirst | hlast
        · exact ih (n / 10) (by omega) hfirst
        · rw [List.mem_singleton.1 hlast, isDigit, digit?_digitChar (Nat.mod_lt n (by decide))]
          rfl

/-- Only zero is written with a leading zero. -/
theorem eq_zero_of_head?_toDigits {n : Nat} (h : (Nat.toDigits 10 n).head? = some '0') : n = 0 := by
  induction n using Nat.strongRecOn with
  | ind n ih =>
      rw [Nat.toDigits_eq_if (by decide)] at h
      split at h
      · rename_i hlt
        have hdigit := digit?_digitChar hlt
        rw [List.head?_singleton, Option.some.injEq] at h
        rw [h] at hdigit
        exact (Option.some.inj hdigit).symm
      · rename_i hle
        rw [List.head?_append_of_ne_nil _ Nat.toDigits_ne_nil] at h
        have := ih (n / 10) (by omega) h
        omega

theorem spanDigits_of_forall {cs : List Char} (h : ∀ c ∈ cs, isDigit c = true) :
    spanDigits cs = (cs, []) := by
  rw [spanDigits, List.span_eq_takeWhile_dropWhile, List.takeWhile_eq_self_iff.2 h,
    List.dropWhile_eq_nil_iff.2 h]

end Decimal

namespace Json

/-! ## Integers -/

/-- The digits of a number as the grammar wants them: some, and without a leading zero. -/
private theorem toDigits_wellFormed (n : Nat) :
    ((Nat.toDigits 10 n).isEmpty ||
      (1 < (Nat.toDigits 10 n).length && (Nat.toDigits 10 n).head? == some '0')) = false := by
  rw [Bool.or_eq_false_iff, Bool.and_eq_false_iff]
  refine ⟨List.isEmpty_eq_false_iff.2 Nat.toDigits_ne_nil, ?_⟩
  by_cases hhead : (Nat.toDigits 10 n).head? = some '0'
  · rw [Decimal.eq_zero_of_head?_toDigits hhead]
    exact .inl (by decide)
  · exact .inr (by simpa using hhead)

/-- The digits of a natural number spell it without a sign and with one. -/
theorem read?_toDigits (n : Nat) :
    Spelling.read? (Nat.toDigits 10 n) = some ⟨false, Nat.toDigits 10 n, [], 0, true⟩ ∧
      Spelling.read? ('-' :: Nat.toDigits 10 n) = some ⟨true, Nat.toDigits 10 n, [], 0, true⟩ := by
  have hspan := Decimal.spanDigits_of_forall fun c => Decimal.isDigit_of_mem_toDigits (n := n) (c := c)
  have hformed := toDigits_wellFormed n
  have hdigit : ∀ c ∈ Nat.toDigits 10 n, Decimal.isDigit c = true :=
    fun c => Decimal.isDigit_of_mem_toDigits
  generalize Nat.toDigits 10 n = cs at *
  have hsign : ∀ rest, cs ≠ '-' :: rest := by
    rintro rest rfl
    exact absurd (hdigit '-' List.mem_cons_self) (by decide)
  constructor
  · unfold Spelling.read?
    split
    · rename_i rest heq
      split at heq
      · exact absurd rfl (hsign _)
      · obtain ⟨rfl, rfl⟩ := Prod.mk.inj heq
        dsimp only
        rw [hspan]
        dsimp only
        rw [hformed]
        rfl
  · unfold Spelling.read?
    split
    · rename_i rest heq
      split at heq
      · rename_i heq'
        obtain ⟨rfl, rfl⟩ := Prod.mk.inj heq
        rw [← (List.cons.inj heq').2]
        dsimp only
        rw [hspan]
        dsimp only
        rw [hformed]
        rfl
      · rename_i hnot
        exact absurd rfl (hnot cs)

/-- Integers that 64 bits hold, signed or unsigned. -/
def IsWord (n : Int) : Prop :=
  -Decimal.int64Bound ≤ n ∧ n < UInt64.size

instance (n : Int) : Decidable (IsWord n) :=
  inferInstanceAs (Decidable (_ ∧ _))

theorem isWord_of_lt {n : Nat} (h : n < UInt64.size) : IsWord n :=
  ⟨by omega, by omega⟩

/-- The text of an integer of 64 bits spells it. -/
theorem number?_integerText {n : Int} (h : IsWord n) :
    number? (integerText n) = some (.number (some (.integer n))) := by
  obtain ⟨hlow, hhigh⟩ := h
  cases n with
  | ofNat n =>
      have hlt : n < UInt64.size := Int.ofNat_lt.1 hhigh
      rw [integerText, number?, (read?_toDigits n).1, Option.map_some, Spelling.value?]
      simp only [Decimal.ofDigits_toDigits]
      rw [if_pos (by simp [hlt])]
      rfl
  | negSucc n =>
      have hle : n + 1 ≤ Decimal.int64Bound := by omega
      rw [integerText, number?, (read?_toDigits (n + 1)).2, Option.map_some, Spelling.value?]
      simp only [Decimal.ofDigits_toDigits]
      rw [if_neg (by simp), if_pos (by simp [hle])]
      rfl

/-! ## Characters -/

/-- A text that the scanner takes for one number. -/
def IsNumberText (cs : List Char) : Prop :=
  (∃ c ∈ cs.head?, isNumberStart c = true) ∧ ∀ c ∈ cs, isNumberPart c = true

theorem isNumberPart_of_isDigit {c : Char} (h : Decimal.isDigit c = true) :
    isNumberPart c = true := by
  simp [isNumberPart, h]

theorem isNumberStart_of_isDigit {c : Char} (h : Decimal.isDigit c = true) :
    isNumberStart c = true := by
  simp [isNumberStart, h]

/-- A number goes on as it likes. -/
theorem IsNumberText.append {cs rest : List Char} (h : IsNumberText cs)
    (hrest : ∀ c ∈ rest, isNumberPart c = true) : IsNumberText (cs ++ rest) := by
  obtain ⟨⟨c, hhead, hstart⟩, hall⟩ := h
  refine ⟨⟨c, ?_, hstart⟩, fun d hd => (List.mem_append.1 hd).elim (hall d) (hrest d)⟩
  rw [List.head?_append, Option.mem_def.1 hhead]
  rfl

theorem isNumberText_of_digits {cs : List Char} (hne : cs ≠ [])
    (h : ∀ c ∈ cs, Decimal.isDigit c = true) : IsNumberText cs := by
  refine ⟨⟨cs.head hne, ?_, isNumberStart_of_isDigit (h _ (List.head_mem hne))⟩,
    fun c hc => isNumberPart_of_isDigit (h c hc)⟩
  rw [List.head?_eq_some_head hne]
  rfl

theorem isNumberText_toDigits (n : Nat) : IsNumberText (Nat.toDigits 10 n) :=
  isNumberText_of_digits Nat.toDigits_ne_nil fun _ => Decimal.isDigit_of_mem_toDigits

/-- A number may have a minus sign. -/
theorem IsNumberText.negative {cs : List Char} (h : IsNumberText cs) : IsNumberText ('-' :: cs) := by
  refine ⟨⟨'-', rfl, by decide⟩, fun c hc => ?_⟩
  rcases List.mem_cons.1 hc with rfl | hc
  · decide
  · exact h.2 c hc

theorem isNumberText_integerText (n : Int) : IsNumberText (integerText n) := by
  cases n with
  | ofNat n => exact isNumberText_toDigits n
  | negSucc n => exact (isNumberText_toDigits (n + 1)).negative

/-- The point of a mantissa stands behind its first digit. -/
theorem IsNumberText.pointed {first : Char} {rest : List Char} (h : IsNumberText (first :: rest)) :
    IsNumberText (first :: '.' :: rest) := by
  obtain ⟨hhead, hall⟩ := h
  obtain ⟨hfirst, hrest⟩ := List.forall_mem_cons.1 hall
  exact ⟨hhead, List.forall_mem_cons.2 ⟨hfirst, List.forall_mem_cons.2 ⟨by decide, hrest⟩⟩⟩

theorem isNumberText_scaledText (decimal : Decimal.Scaled) : IsNumberText (scaledText decimal) := by
  have hdigits := isNumberText_toDigits decimal.digits
  have hzeros : ∀ (count : Nat), ∀ c ∈ List.replicate count '0', isNumberPart c = true := by
    intro count c hc
    rw [List.eq_of_mem_replicate hc]
    decide
  unfold scaledText
  dsimp only
  generalize hpoint : ((Nat.toDigits 10 decimal.digits).length : Int) + decimal.exponent = point
  split
  · exact ⟨⟨'0', rfl, by decide⟩, List.all_eq_true.1 rfl⟩
  split
  · -- one digit before the point, and an exponent
    have hsign : isNumberPart (if 0 < point - 1 then '+' else '-') = true := by split <;> decide
    refine IsNumberText.append ?_ (List.forall_mem_cons.2
      ⟨by decide, List.forall_mem_cons.2 ⟨hsign, (isNumberText_toDigits _).2⟩⟩)
    split
    · rename_i hnil
      exact absurd hnil Nat.toDigits_ne_nil
    · rename_i hsingle
      rwa [hsingle] at hdigits
    · rename_i hmany
      rw [hmany] at hdigits
      exact hdigits.pointed
  split
  · -- zeros behind the point
    have hstart : IsNumberText ['0', '.'] := ⟨⟨'0', rfl, by decide⟩, List.all_eq_true.1 rfl⟩
    exact (hstart.append (hzeros _)).append hdigits.2
  split
  · exact (hdigits.append (hzeros _)).append (List.all_eq_true.1 rfl)
  · -- the point among the digits
    have htake : IsNumberText ((Nat.toDigits 10 decimal.digits).take point.toNat) := by
      refine isNumberText_of_digits ?_ fun c hc =>
        Decimal.isDigit_of_mem_toDigits (List.mem_of_mem_take hc)
      rw [Ne, List.take_eq_nil_iff, not_or]
      exact ⟨by omega, Nat.toDigits_ne_nil⟩
    exact htake.append (List.forall_mem_cons.2
      ⟨by decide, fun c hc => hdigits.2 c (List.mem_of_mem_drop hc)⟩)

/-- A double is written as a number, or as the word for nothing. -/
theorem doubleText_cases (x : Float) :
    doubleText x = "null".toList ∨ IsNumberText (doubleText x) := by
  unfold doubleText
  split
  · exact .inl rfl
  · dsimp only
    refine .inr ?_
    split
    · exact (isNumberText_scaledText _).negative
    · exact isNumberText_scaledText _

end Json

end JobGraph
