import RobotLang.Embedding.Service
import RobotLang.Main
import RobotLang.Proofs.DeclarationOrder
import RobotLang.Proofs.EarliestError
import RobotLang.Proofs.ErrorTokens
import RobotLang.Proofs.FrontEnds
import RobotLang.Proofs.Hosts
import RobotLang.Proofs.JoinedTexts
import RobotLang.Proofs.LexicalGrammar
import RobotLang.Proofs.NestingLimit
import RobotLang.Proofs.Positions
import RobotLang.Proofs.ProgramOperations
import RobotLang.Proofs.RepeatedNames
import RobotLang.Proofs.StatementAcceptance
import RobotLang.Proofs.Targets
import RobotLang.Proofs.Totality
import RobotLang.Proofs.Unambiguous
import RobotLang.Proofs.RefusedDeclarations
import RobotLang.Proofs.Edits
import RobotLang.Proofs.Preconditions
import RobotLang.Proofs.BlockEdits
import RobotLang.Proofs.Reassembly
import RobotLang.Proofs.CanonicalLines
import RobotLang.Proofs.ConditionNames
import RobotLang.Proofs.Consumption
import RobotLang.Proofs.Unread
import RobotLang.Proofs.RecordForms
import RobotLang.Proofs.JsonTexts
import RobotLang.Proofs.TreeTexts
import RobotLang.Proofs.TokenListing
import RobotLang.Proofs.LoggedRuns
import RobotLang.Proofs.Flags
import RobotLang.Proofs.LogLines
import RobotLang.Proofs.ReportedErrors
import RobotLang.Proofs.ToolLog
