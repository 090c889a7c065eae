import Plfit.Library.ExactDouble
import Plfit.Library.MathLibrary
import Plfit.Model.Basic
import Plfit.Model.Sampling
import Plfit.Model.RoundedSampling
import Plfit.Model.Arrays
import Plfit.Model.GoldenSection
import Plfit.Model.Continuous
import Plfit.Model.Discrete
import Plfit.Model.PValue
import Plfit.Library.StrictScan
import Plfit.Search.LinearScan
import Plfit.Search.ParallelScan
import Plfit.Library.SortedBlocks
import Plfit.Search.Probes
import Plfit.Search.StratifiedSearch
import Plfit.Search.StratifiedCoverage
import Plfit.Fit.ContinuousFit
import Plfit.Search.Candidates
import Plfit.Search.DiscreteSearch
import Plfit.Search.CandidateSet
import Plfit.Fit.DiscreteFit
import Plfit.Library.AliasTable
import Plfit.Sampling.WalkerAlias
import Plfit.Sampling.WalkerDraw
import Plfit.Sampling.Resampling
import Plfit.Library.NearestEven
import Plfit.Library.RingRecurrence
import Plfit.Sampling.TwisterStream
import Plfit.Fit.MaximumLikelihood
import Plfit.Sampling.ZetaRejection
import Plfit.Sampling.SplitResampling
import Plfit.Model.Generator
import Plfit.Sampling.CutoffWeights
import Plfit.Fit.Permutation
import Plfit.Library.TwoRuns
import Plfit.Fit.EmptyTail
import Plfit.Search.GoldenBracket
import Plfit.Search.BracketPath
import Plfit.Search.GoldenSearch
import Plfit.Fit.FailingProbes
import Plfit.Fit.GoldenFit
import Plfit.Fit.SyntheticTrials
import Plfit.Input.ReadingLoop
import Plfit.Input.CorruptedFiles
import Plfit.Fit.ZeroLogSum
import Plfit.Library.EmpiricalDistribution
import Plfit.Fit.SupremumDistance
import Plfit.Search.StratifiedPointers
import Plfit.Search.GoldenRun
import Plfit.Search.GoldenTermination
import Plfit.Library.UShapedFunction
import Plfit.Search.GoldenMinimum
import Plfit.Search.ShapeTest
import Plfit.Search.GoldenProbe
import Plfit.Fit.FiniteSizeCorrection
import Plfit.Fit.TailCount
import Plfit.Library.HurwitzZeta
import Plfit.Library.IntegerDistribution
import Plfit.Library.SampleMoments
import Plfit.Model.Stats
import Plfit.Fit.DiscreteDistance
import Plfit.Fit.GridScan
import Plfit.Sampling.ZetaGuard
import Plfit.Sampling.SuccessiveCalls
import Plfit.Statistics.Moments
import Plfit.Statistics.KolmogorovRange
import Plfit.Search.BlockPointers
import Plfit.Library.QuasiNewton
import Plfit.Library.LogZeta
import Plfit.Model.Lbfgs
import Plfit.Optimizer.TwoLoop
import Plfit.Optimizer.LineSearch
import Plfit.Optimizer.Scheme
import Plfit.Optimizer.Descent
import Plfit.Optimizer.OneVariable
import Plfit.Optimizer.Orthant
import Plfit.Fit.LbfgsEstimate
import Plfit.Library.EulerMaclaurin
import Plfit.Library.ZetaExpansion
import Plfit.Model.Hzeta
import Plfit.Zeta.Coefficients
import Plfit.Zeta.HurwitzSum
import Plfit.Zeta.LogHurwitz
import Plfit.Zeta.LinkedFit
