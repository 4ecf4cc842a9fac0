import Metaheuristics.Annealing.Run
import Metaheuristics.Fitness.Vector
import Metaheuristics.Model.Formula
import Metaheuristics.Model.Problem
import Metaheuristics.Multiverse.Run
import Metaheuristics.Proofs.Arithmetic.Overflow
import Metaheuristics.Proofs.Arithmetic.Scaling
import Metaheuristics.Proofs.Arithmetic.Sums
import Metaheuristics.Proofs.Fitness.Duality
import Metaheuristics.Proofs.Fitness.Encodings
import Metaheuristics.Proofs.Fitness.Totality
import Metaheuristics.Proofs.Multiverse.Recombination
import Metaheuristics.Proofs.Outcomes.AbsentFitness
import Metaheuristics.Proofs.Outcomes.BestOfRun
import Metaheuristics.Proofs.Outcomes.CoolingSchedule
import Metaheuristics.Proofs.Outcomes.EliteRefresh
import Metaheuristics.Proofs.Outcomes.Failures
import Metaheuristics.Proofs.Outcomes.FeasibleMoves
import Metaheuristics.Proofs.Outcomes.ForwardMoves
import Metaheuristics.Proofs.Outcomes.InsideBox
import Metaheuristics.Proofs.Outcomes.Lifecycle
import Metaheuristics.Proofs.Outcomes.PersonalBests
import Metaheuristics.Proofs.Outcomes.Recombination
import Metaheuristics.Proofs.Outcomes.Safety
import Metaheuristics.Proofs.Outcomes.SwarmDraws
import Metaheuristics.Proofs.Outcomes.TemperatureFloor
import Metaheuristics.Proofs.Outcomes.TopOfRun
import Metaheuristics.Proofs.Outcomes.TrialAccounts
import Metaheuristics.Proofs.Outcomes.Truncation
import Metaheuristics.Proofs.Outcomes.WhiteHoleRates
import Metaheuristics.Proofs.Random.Choices
import Metaheuristics.Proofs.Random.Fractions
import Metaheuristics.Proofs.Tracker.Leaps
import Metaheuristics.Proofs.Tracker.Pricing
import Metaheuristics.Proofs.Tracker.Rate
import Metaheuristics.Random.Keystream
import Metaheuristics.Swarm.Run
import Metaheuristics.Proofs.Random.Words
import Metaheuristics.Proofs.Runs.Draws
