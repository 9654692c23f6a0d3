set_option autoImplicit false

namespace Stencil

/-- Reloads wait in a queue that has room for at least one. -/
structure Settings where
  watchInterval : Nat
  queueCapacity : Nat
  contextRadius : Nat
  one_le_queueCapacity : 1 ≤ queueCapacity
  deriving DecidableEq

namespace Settings

def standard : Settings := ⟨1000, 20, 2, by decide⟩

def withWatchInterval (s : Settings) (milliseconds : Nat) : Settings :=
  { s with watchInterval := milliseconds }

def withQueueCapacity (s : Settings) (capacity : Nat) : Settings :=
  { s with queueCapacity := max capacity 1, one_le_queueCapacity := Nat.le_max_right _ _ }

def withContextRadius (s : Settings) (radius : Nat) : Settings := { s with contextRadius := radius }

end Settings

end Stencil
