import Conform.Proofs.Compiled.DataCheck
import Conform.Proofs.Compiled.Placement
import Conform.Proofs.Schema.Renewal

namespace Conform

namespace Run

variable {α β : Type}

end Run

open Run

namespace Schema

variable {host : Host} {s : Schema} {fuel : Nat}

theorem Immediate.written (hs : s.Immediate host) : s.Written := by
  intro d hd
  have := hs.produced _ hd.within
  simp [isDeferred] at this

end Schema

end Conform
