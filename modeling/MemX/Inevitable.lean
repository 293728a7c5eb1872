import Mathlib.Logic.Hydra

namespace MemX.Inevitable

open Relation

variable {S E W : Type} {step : S → E → Option S} {allowed : E → Prop} {due : S → E → Prop} {P Q : S → Prop}

end MemX.Inevitable
