/-!
# Sets of characters given by ranges

A table lists the first and last code points of its ranges in increasing order, so membership is
decided by bisection.
-/
namespace SchemaDoc.Text

/-- Looks for a code point between two places of a table, in at most `steps` halvings. -/
def inRangesBetween (table : Array (Nat × Nat)) (n : Nat) : Nat → Nat → Nat → Bool
  | 0, _, _ => false
  | steps + 1, low, high =>
    if high ≤ low then false
    else
      let middle := (low + high) / 2
      match table[middle]? with
      | none => false
      | some (first, last) =>
        if n < first then inRangesBetween table n steps low middle
        else if last < n then inRangesBetween table n steps (middle + 1) high
        else true

/-- The code point lies in a range of the table. -/
def inRanges (table : Array (Nat × Nat)) (n : Nat) : Bool :=
  inRangesBetween table n (Nat.log2 table.size + 1) 0 table.size

end SchemaDoc.Text
