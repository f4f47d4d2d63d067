/-!
# Ranges of code points

A class of characters is given by closed ranges of code points.
-/

namespace AnnotatedScheme

def inRanges (ranges : List (Nat × Nat)) (c : Char) : Bool :=
  ranges.any fun (first, last) => Nat.ble first c.toNat && Nat.ble c.toNat last

end AnnotatedScheme
