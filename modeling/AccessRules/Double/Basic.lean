import AccessRules.Double.Rounding

/-! Double-precision numbers, held as exact multiples of the least positive one. -/
namespace AccessRules

def quantaPerOne : Nat := Nat.pow 2 1074

def overflowQuanta : Nat := Nat.pow 2 2098

theorem overflowQuanta_pos : 0 < overflowQuanta := by
  unfold overflowQuanta
  apply Nat.two_pow_pos

/-- The size of a finite double, in quanta. -/
structure Magnitude where
  quanta : Nat
  aligned : Double.Aligned quanta
  bounded : quanta < overflowQuanta
deriving DecidableEq

namespace Magnitude

/-- The nearest magnitude to `num / den` quanta, or `none` on overflow. -/
def round? (num den : Nat) : Option Magnitude :=
  if h : Double.nearest num den < overflowQuanta then
    some ⟨Double.nearest num den, Double.aligned_nearest num den, h⟩
  else none

def zero : Magnitude := ⟨0, Nat.zero_mod _, overflowQuanta_pos⟩

def ofNat? (n : Nat) : Option Magnitude := round? (n * quantaPerOne) 1

def mul? (a b : Magnitude) : Option Magnitude := round? (a.quanta * b.quanta) quantaPerOne

def div? (a b : Magnitude) : Option Magnitude := round? (a.quanta * quantaPerOne) b.quanta

def Integral (m : Magnitude) : Prop := m.quanta % quantaPerOne = 0

instance (m : Magnitude) : Decidable m.Integral := inferInstanceAs (Decidable (_ = _))

def floor (m : Magnitude) : Nat := m.quanta / quantaPerOne

end Magnitude

/-- A finite double; zero has both signs. -/
structure Double.Finite where
  negative : Bool
  magnitude : Magnitude
deriving DecidableEq

/-- A double-precision number. NaN payloads are not kept. -/
inductive Double where
  | nan
  | infinite (negative : Bool)
  | finite (x : Double.Finite)
deriving DecidableEq

namespace Double

namespace Finite

def IsZero (x : Finite) : Prop := x.magnitude.quanta = 0

instance (x : Finite) : Decidable x.IsZero := inferInstanceAs (Decidable (_ = _))

/-- Numerical equality: the two zeros are the same number. -/
def beq (x y : Finite) : Bool :=
  x.magnitude == y.magnitude && (x.negative == y.negative || decide x.IsZero)

instance : BEq Finite := ⟨beq⟩

end Finite

/-- Numerical equality: NaN equals nothing and the two zeros are equal. -/
protected def beq : Double → Double → Bool
  | .finite x, .finite y => x == y
  | .infinite s, .infinite t => s == t
  | _, _ => false

instance : BEq Double := ⟨Double.beq⟩

/-- The nearest double of the given sign to `num / den` quanta, infinite on overflow. -/
def round (negative : Bool) (num den : Nat) : Double :=
  match Magnitude.round? num den with
  | some m => .finite ⟨negative, m⟩
  | none => .infinite negative

def ofInt (n : Int) : Double := round (decide (n < 0)) (n.natAbs * quantaPerOne) 1

/-- The double with the given interchange encoding: sign, eleven exponent bits, 52 fraction bits. -/
def ofBits (w : UInt64) : Double :=
  let negative := w >>> 63 == 1
  let exponent := (w >>> 52 &&& 0x7FF).toNat
  let fraction := (w &&& 0xFFFFFFFFFFFFF).toNat
  if exponent = 2047 then
    if fraction = 0 then .infinite negative else .nan
  else if exponent = 0 then round negative fraction 1
  else round negative ((Nat.pow 2 52 + fraction) * Nat.pow 2 (exponent - 1)) 1

def IsFinite : Double → Prop
  | .finite _ => True
  | _ => False

instance : DecidablePred IsFinite
  | .finite _ => isTrue trivial
  | .infinite _ => isFalse id
  | .nan => isFalse id

end Double

end AccessRules
