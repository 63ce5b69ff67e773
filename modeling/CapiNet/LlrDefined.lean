import CapiNet.MleRounds
import CapiNet.Outcomes
import CapiNet.PairStep
import CapiNet.SprtRegion

namespace CapiNet

open Txn

section Ends

variable {F : Type} {skip : Lock → Bool}

end Ends

section Calls

variable {hat : PentaPdf ℝ} {ref s : ℝ}

end Calls

end CapiNet
