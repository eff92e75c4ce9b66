import Jack.Main
import Jack.Proofs.Arrangement
import Jack.Proofs.Conservation
import Jack.Proofs.SessionConservation
import Jack.Proofs.Derivation
import Jack.Proofs.Dispatch
import Jack.Proofs.ProductionDerivation
import Jack.Proofs.Recognition
import Jack.Proofs.Revision
import Jack.Proofs.Simulation
import Jack.Proofs.CommentTransparency
import Jack.Proofs.AbstractDerivation
import Jack.Proofs.GrammarAcceptance
import Jack.Proofs.Segmentation
import Jack.Proofs.Classification
import Jack.Proofs.Scanner
import Jack.Proofs.LexerAgreement
import Jack.Proofs.Respelling
import Jack.Proofs.Postcondition
import Jack.Proofs.Nesting
import Jack.Proofs.BracketPairing
import Jack.Proofs.Locality
import Jack.Proofs.PrefixVerdict
import Jack.Proofs.Renaming
import Jack.Proofs.LineBoundary
import Jack.Proofs.Fronts
import Jack.Proofs.Labels
import Jack.Proofs.JsonInjectivity
import Jack.Proofs.OneLine
import Jack.Proofs.OutlineReading
import Jack.Proofs.CommentCuts
import Jack.Proofs.CommentConservation
import Jack.Proofs.PrintedOutput
import Jack.Proofs.DispatchListing
import Jack.Proofs.ErrorPosition
import Jack.Proofs.DispatchLog
import Jack.Proofs.CommentRemoval
import Jack.Proofs.CodeSegmentation
import Jack.Proofs.ArgumentSplitting
import Jack.Proofs.Occurrence
import Jack.Proofs.UniqueReading
import Jack.Proofs.BlankPlaces
import Jack.Proofs.ExpressionSurvey
import Jack.Proofs.ConstructSurvey
import Jack.Proofs.ExpressionContent
import Jack.Proofs.Numerals
import Jack.Proofs.Unrolling
import Jack.Proofs.ScanProgress
