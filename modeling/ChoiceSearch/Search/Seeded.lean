import ChoiceSearch.Config
import ChoiceSearch.Random.ChaCha
import ChoiceSearch.Scalar.Double
import ChoiceSearch.Search.Sample

/-!
# Sampling with a seed

The samples that a configuration asks for, drawn with the generator that its seed
starts. The same configuration draws the same samples every time.
-/

namespace ChoiceSearch

/-- The generator that a configuration starts with. Without a seed it is that of
seed zero. -/
def SamplingConfig.generator (c : SamplingConfig) : ChaCha :=
  .ofSeed (UInt64.ofNat (c.seed.getD 0))

/-- Draws the samples that a configuration asks for, best first. -/
def Setting.sampleSeeded {D κ : Type} (S : Setting D κ Float) (config : SamplingConfig)
    (program : Program D κ Float) (env : Env D Float) :
    Logged Float (Result Float (Marginals (Value D Float) D Float)) :=
  S.sampleMany config.numSamples program env config.generator

end ChoiceSearch
