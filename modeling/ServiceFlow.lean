import ServiceFlow.Main
import ServiceFlow.Proofs.DocumentNames
import ServiceFlow.Proofs.FlowTermination
import ServiceFlow.Proofs.NamespaceIndependence
import ServiceFlow.Proofs.NearestHandlers
import ServiceFlow.Proofs.StateOwners
import ServiceFlow.Proofs.TerminalStatements
import ServiceFlow.Proofs.VisibleNames
import ServiceFlow.Proofs.SettledExpressions
import ServiceFlow.Proofs.ConcatenatedParts
import ServiceFlow.Proofs.FlatteningFaults
import ServiceFlow.Proofs.FinallyJumps
import ServiceFlow.Proofs.ChoiceConditions
import ServiceFlow.Proofs.FormatCalls
import ServiceFlow.Proofs.ObjectPayloads
import ServiceFlow.Proofs.TableParameters
import ServiceFlow.Proofs.IterationVariables
import ServiceFlow.Proofs.NestedBlocks
import ServiceFlow.Proofs.RecordedReturns
import ServiceFlow.Proofs.AssignedTemporaries
import ServiceFlow.Proofs.InsertedConstants
import ServiceFlow.Proofs.PathTexts
import ServiceFlow.Proofs.TemplateLiterals
import ServiceFlow.Proofs.AllocatedNames
import ServiceFlow.Proofs.ExactLayouts
import ServiceFlow.Proofs.AgreeingWalks
import ServiceFlow.Proofs.TreeDocuments
