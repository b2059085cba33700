namespace Unstack

structure Options where
  /-- Rounds of the dataflow analysis before it gives up. -/
  maxRounds : Nat := 1000
  /-- Folds of one kind at one block before it gives up. Every fold removes a block, so the number of blocks
  counts instead where it is greater. -/
  maxFolds : Nat := 100
  stringSwitch : Bool := true
  enumSwitch : Bool := true
  /-- Write `a.f += x` for `a.f = a.f + x`. -/
  compoundAssignments : Bool := true
  deriving DecidableEq, Inhabited

end Unstack
