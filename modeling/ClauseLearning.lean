import ClauseLearning.Main
import ClauseLearning.Proofs.BranchingTotality
import ClauseLearning.Proofs.ClauseNovelty
import ClauseLearning.Proofs.DimacsRoundTrip
import ClauseLearning.Proofs.Entailment
import ClauseLearning.Proofs.FaultFreedom
import ClauseLearning.Proofs.ImplicationGraph
import ClauseLearning.Proofs.LevelHistories
import ClauseLearning.Proofs.PigeonholePrinciple
import ClauseLearning.Proofs.PropagationClosure
import ClauseLearning.Proofs.Restarts
import ClauseLearning.Proofs.Soundness
import ClauseLearning.Proofs.StoreHistories
import ClauseLearning.Proofs.StoredFormula
import ClauseLearning.Proofs.Termination
import ClauseLearning.Proofs.OccurrenceCounts
import ClauseLearning.Proofs.ActivityOrder
import ClauseLearning.Proofs.LazyDecay
import ClauseLearning.Proofs.RunStatistics
import ClauseLearning.Proofs.RestartSchedule
import ClauseLearning.Proofs.DecodedText
import ClauseLearning.Proofs.WatchUpdate
import ClauseLearning.Proofs.RewardBound
