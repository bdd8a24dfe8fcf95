/-!
# Rounding

The natural number nearest to a fraction; where two are equally near, the even
one. All numbers that are printed with a limited number of digits are rounded
by this rule.
-/

namespace FormattedText

/-- Rounds `num / den` to the nearest natural number, a tie to the even one. -/
def roundHalfEven (num den : Nat) : Nat :=
  let q := num / den
  let r := num % den
  if den < 2 * r ∨ (2 * r = den ∧ q % 2 = 1) then q + 1 else q

end FormattedText
