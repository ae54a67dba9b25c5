import PocketLisp.HostData
import PocketLisp.Main
import PocketLisp.Proofs.RunEquations
import PocketLisp.Proofs.StoreGrowth
import PocketLisp.Proofs.EvaluationRules
import PocketLisp.Proofs.EvaluationRuns
import PocketLisp.Proofs.ReadData
import PocketLisp.Proofs.Numerals
import PocketLisp.Proofs.ReaderGrammar
import PocketLisp.Proofs.ReaderRuns
import PocketLisp.Proofs.TokenLayout
import PocketLisp.Proofs.LineEnds
import PocketLisp.Proofs.StoreTrees
import PocketLisp.Proofs.PrintedForms
import PocketLisp.Proofs.GlobalFrame
import PocketLisp.Proofs.Sessions
import PocketLisp.Proofs.ReferenceSemantics
import PocketLisp.Proofs.StoredValues
import PocketLisp.Proofs.RepresentedGlobals
import PocketLisp.Proofs.ListedGlobals
import PocketLisp.Proofs.StoreSimulation
import PocketLisp.Proofs.SessionRefinement
import PocketLisp.Proofs.EvaluationMoments
import PocketLisp.Proofs.LexicalScope
import PocketLisp.Proofs.Confinement
import PocketLisp.Proofs.Faultlessness
import PocketLisp.Proofs.StoredErrors
import PocketLisp.Proofs.LineFaults
import PocketLisp.Proofs.Seclusion
import PocketLisp.Proofs.LineValues
import PocketLisp.Proofs.NameCorrespondences
import PocketLisp.Proofs.LastDefinitions
import PocketLisp.Proofs.RenamedSessions
import PocketLisp.Proofs.LineOutcomes
import PocketLisp.Proofs.Residents
import PocketLisp.Proofs.SharedStores
import PocketLisp.Proofs.Conversations
import PocketLisp.Proofs.LookupStability
import PocketLisp.Proofs.InternedSymbols
import PocketLisp.Proofs.SymbolIdentity
import PocketLisp.Proofs.SessionBindings
import PocketLisp.Proofs.FilesAndConversations
import PocketLisp.Proofs.ReaderFailures
import PocketLisp.Proofs.LocalReading
import PocketLisp.Proofs.StoppedRuns
import PocketLisp.Proofs.EnvironmentRoots
import PocketLisp.Proofs.DataCells
import PocketLisp.Proofs.FrameCells
import PocketLisp.Proofs.SeparatedMoments
import PocketLisp.Proofs.AcyclicStores
import PocketLisp.Proofs.ParameterBinding
import PocketLisp.Proofs.EnteredNames
import PocketLisp.Proofs.LayoutInvariance
import PocketLisp.Proofs.SessionNames
import PocketLisp.Proofs.ApplicationOrder
import PocketLisp.Proofs.ListReversal
import PocketLisp.Proofs.ReaderProgress
import PocketLisp.Proofs.NumberTokens
import PocketLisp.Proofs.ValueEquality
import PocketLisp.Proofs.FirstOrderForms
import PocketLisp.Proofs.FirstOrderSessions
