/-!
# Operators

The operators that source trees and flat code share, with the symbol each is written as.
-/

namespace SlotCode

/-- Operators that fold a list of operands of one type into a value of that type. -/
inductive ArithOp where
  | concat
  | and
  | or
  | add
  | sub
  | mul
  | div
deriving DecidableEq

/-- Comparisons of two integers. -/
inductive CmpOp where
  | lt
  | le
  | gt
  | ge
  | eq
deriving DecidableEq

def ArithOp.symbol : ArithOp → String
  | .concat => "@"
  | .and => "&&"
  | .or => "||"
  | .add => "+"
  | .sub => "-"
  | .mul => "*"
  | .div => "/"

def CmpOp.symbol : CmpOp → String
  | .lt => "<"
  | .le => "<="
  | .gt => ">"
  | .ge => ">="
  | .eq => "="

end SlotCode
