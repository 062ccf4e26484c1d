import Mathlib.Data.Finset.Max
import Mathlib.Data.Finset.SDiff

/-! Standard signals as one process sees them: a signal is pending or it is not, so that a second
one of the same kind is lost, and it is delivered only where the mask lets it through. -/
namespace Signals

variable {Sig : Type} [LinearOrder Sig]

structure SignalState (Sig : Type) [LinearOrder Sig] where
  pending : Finset Sig
  blocked : Finset Sig
  deriving DecidableEq

namespace SignalState

def send (p : SignalState Sig) (sig : Sig) : SignalState Sig :=
  { p with pending := insert sig p.pending }

def deliver (p : SignalState Sig) : Option (SignalState Sig) :=
  if p.pending ⊆ p.blocked then none else some { p with pending := p.pending ∩ p.blocked }

/-- Returns once a handler has run under the given mask; then the old mask is back. -/
def sigsuspend (mask : Finset Sig) (p : SignalState Sig) : Option (SignalState Sig) :=
  if p.pending ⊆ mask then none else some { p with pending := p.pending ∩ mask }

def setMask (mask : Finset Sig) (p : SignalState Sig) : SignalState Sig :=
  { p with blocked := mask }

end SignalState

variable {p : SignalState Sig}

open SignalState

end Signals
