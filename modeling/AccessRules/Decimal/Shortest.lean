import AccessRules.Double.Basic

/-! The shortest decimal that reads back as a given magnitude.

Counted in units of `10 ^ (-1074)` every magnitude is a natural number. Decimal grids are tried from
coarse to fine: if any point of a grid reads back as the magnitude, one of the two points around the
magnitude does, so only these are tested. -/
namespace AccessRules

/-- The number `digits * 10 ^ exponent`. -/
structure Decimal where
  digits : Nat
  exponent : Int
deriving DecidableEq

namespace Decimal

def unitsPerQuantum : Nat := Nat.pow 5 1074

/-- Which of two equally near decimals is taken. -/
inductive Tie where
  | above
  | even
deriving DecidableEq

/-- The point above is taken, where the value lies `rest` past `below` steps of the given size. -/
def Tie.GoesUp (tie : Tie) (below rest step : Nat) : Prop :=
  step < 2 * rest ∨ 2 * rest = step ∧ (tie = .above ∨ below % 2 = 1)

instance (tie : Tie) (below rest step : Nat) : Decidable (tie.GoesUp below rest step) :=
  inferInstanceAs (Decidable (_ ∨ _))

/-- The decimal of `c * 10 ^ p` units rounds to `q` quanta. -/
def ReadsBack (q p c : Nat) : Prop := Double.nearest (c * Nat.pow 10 p) unitsPerQuantum = q

instance (q p c : Nat) : Decidable (ReadsBack q p c) := inferInstanceAs (Decidable (_ = _))

/-- The point of the grid of `10 ^ p` units next to `q` quanta that reads back; the nearer of two. -/
def onGrid? (tie : Tie) (q p : Nat) : Option Nat :=
  let below := q * unitsPerQuantum / Nat.pow 10 p
  let rest := q * unitsPerQuantum % Nat.pow 10 p
  if ReadsBack q p below then
    if ReadsBack q p (below + 1) ∧ tie.GoesUp below rest (Nat.pow 10 p) then some (below + 1)
    else some below
  else if ReadsBack q p (below + 1) then some (below + 1)
  else none

def ofUnits (c p : Nat) : Decimal := ⟨c, p - 1074⟩

/-- The first grid of at most `10 ^ p` units with a hit; the finest grid holds every magnitude. -/
def shortestFrom (tie : Tie) (q p : Nat) : Decimal :=
  ((List.range' 1 p).reverse.findSome? fun k => (onGrid? tie q k).map (ofUnits · k)).getD
    (ofUnits (q * unitsPerQuantum) 0)

/-- The exponent of a grid coarser than `n` units, since `2 ^ 13 < 10 ^ 4`. -/
def coarsest (n : Nat) : Nat := 4 * (n.log2 / 13 + 1)

theorem lt_ten_pow_coarsest (n : Nat) : n < Nat.pow 10 (coarsest n) := by
  have hk : 2 ^ (13 * (n.log2 / 13 + 1)) ≤ 10 ^ coarsest n := by
    rw [coarsest, Nat.pow_mul, Nat.pow_mul]
    exact Nat.pow_le_pow_left (by decide) _
  exact Nat.lt_of_lt_of_le Nat.lt_log2_self
    (Nat.le_trans (Nat.pow_le_pow_right (by decide) (by omega)) hk)

/-- The shortest decimal that rounds to the magnitude, and of these the nearest to it. -/
def shortest (tie : Tie) (m : Magnitude) : Decimal :=
  if m.quanta = 0 then ⟨0, 0⟩
  else shortestFrom tie m.quanta (coarsest (m.quanta * unitsPerQuantum))

end Decimal

end AccessRules
