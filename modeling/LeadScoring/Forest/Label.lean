/-!
# Labels

Whether a lead converted.  Tables and requests write the two labels as 1 and 0.
-/

namespace LeadScoring

/-- The outcome of a lead. -/
inductive Label where
  | negative
  | positive
deriving DecidableEq, Repr, Inhabited

namespace Label

/-- The label as a number. -/
def toNat : Label → Nat
  | negative => 0
  | positive => 1

/-- The label of a number. -/
def ofNat? : Nat → Option Label
  | 0 => some negative
  | 1 => some positive
  | _ => none

/-- The label of a truth value. -/
def ofBool (b : Bool) : Label :=
  if b then positive else negative

end Label

end LeadScoring
