import Mathlib.Data.UInt

/-!
# The Buses

`src/hw/buses.h`: the processor's side of the committed bus. A device extends these lines by the others that it reads.
-/

namespace Koncepcja

/-- `CpuBus`: the address, the data, which float high, and the strobes of a memory or an I/O cycle. -/
structure CpuLines where
  addr : UInt16 := 0
  data : UInt8 := 0xFF
  m1 : Bool := false
  mreq : Bool := false
  iorq : Bool := false
  rd : Bool := false
  wr : Bool := false
  deriving DecidableEq, Repr

end Koncepcja
