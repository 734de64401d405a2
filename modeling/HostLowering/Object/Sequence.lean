import HostLowering.Object.Calling
import HostLowering.Object.Equality

set_option autoImplicit false

/-! # Changing sequences -/

namespace HostLowering.Object.Effect

def sequence (v : Value) : Effect (SequenceKind × List Value) := do require ((← get).sequence? v)

/-- The sort of a sequence and the place of its items. -/
def window (v : Value) : Effect (SequenceKind × Window) := do require ((← get).window? v)

/-- Change the items of a sequence by a step on their place in storage. -/
def changeItems (v : Value) (step : Storage → Window → Window × Storage) : Effect Unit := do
  let (kind, place) ← window v
  write v (.sequence kind (← withStorage (step · place)))

/-- Add an item to a set, unless an equal one is present. -/
def addDistinct (v item : Value) : Effect Unit := do
  let (_, items) ← sequence v
  unless (← get).hasItem items item do changeItems v (·.append · [item])

end HostLowering.Object.Effect
