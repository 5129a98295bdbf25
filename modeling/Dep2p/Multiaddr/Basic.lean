import Mathlib.Data.List.Basic

/- Multiaddresses as the rest of the code sees them: a list of components, each the
   code of its protocol with its raw value. -/
namespace Dep2p.Multiaddr

structure Component where
  code : Nat
  rawValue : List UInt8 := []
  deriving DecidableEq, Repr

end Dep2p.Multiaddr

namespace Dep2p

abbrev Multiaddr := List Multiaddr.Component

instance : LawfulBEq Multiaddr := inferInstance

namespace Multiaddr

def P_TCP : Nat := 6
def P_CIRCUIT : Nat := 290
def P_UNIX : Nat := 400

/-- The value of the first component of a protocol. -/
def valueForProtocol (m : Multiaddr) (code : Nat) : Option (List UInt8) :=
  (m.find? (·.code = code)).map (·.rawValue)

/-- Split before the first component that `cb` picks; a part without components is nil. -/
def splitFunc (m : Multiaddr) (cb : Component → Bool) : Option Multiaddr × Option Multiaddr :=
  let parts := m.span fun c => !cb c
  (if parts.1.isEmpty then none else some parts.1, if parts.2.isEmpty then none else some parts.2)

end Multiaddr

end Dep2p
