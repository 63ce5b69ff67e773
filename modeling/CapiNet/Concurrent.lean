import CapiNet.Library.RelyGuarantee
import CapiNet.System

namespace CapiNet

open Txn

variable {F : Type} [LinearOrder F]

/-- A call, with the time its transaction starts. -/
structure Request where
  call : Call
  now : ℚ

def Request.program (E : Env F) (r : Request) : Tx F (Finish Reply) := r.call.program E r.now

abbrev ServerWorld (F : Type) : Type := World Request (Db F) Lock Failure Reply

/-- Nothing is open yet. -/
def quiet (E : Env F) (ops : List Op) : ServerWorld F := ⟨(Server.run E ops).db, []⟩

/-- Some transaction of the world has committed this answer. -/
def Answered (W : ServerWorld F) (c : Call) (r : Reply) : Prop :=
  ∃ now, (⟨⟨c, now⟩, .ended (some (.commit r))⟩ : Session Request (Db F) Lock Failure Reply) ∈
    W.sessions

end CapiNet
