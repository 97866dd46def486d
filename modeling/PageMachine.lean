import PageMachine.Main
import PageMachine.Proofs.LinkedConstant
import PageMachine.Proofs.LinkedFile
import PageMachine.Proofs.LoadableProgram
import PageMachine.Proofs.MovedProgram
import PageMachine.Proofs.PageReference
import PageMachine.Proofs.StepEffect
import PageMachine.Proofs.Labels
import PageMachine.Proofs.CrossReference
import PageMachine.Proofs.LiteralPooling
import PageMachine.Proofs.AbsoluteReference
import PageMachine.Proofs.FailedStep
import PageMachine.Proofs.RunAlarm
import PageMachine.Proofs.LifeCycle
import PageMachine.Proofs.RecordCodec
import PageMachine.Proofs.AcceptedFile
import PageMachine.Proofs.LoadErrors
import PageMachine.Proofs.RepeatedMove
import PageMachine.Proofs.WellFormedProgram
import PageMachine.Proofs.StatementAddress
import PageMachine.Proofs.DecodedStatement
import PageMachine.Proofs.ShownRun
import PageMachine.Proofs.LimitedRun
import PageMachine.Proofs.PatchedWord
import PageMachine.Proofs.ModuleOrder
import PageMachine.Proofs.SourceRemarks
import PageMachine.Proofs.PrintedText
import PageMachine.Proofs.OperandRange
import PageMachine.Proofs.ExportedValue
import PageMachine.Proofs.ImportedOperand
import PageMachine.Proofs.LabelReference
import PageMachine.Proofs.SymbolNames
import PageMachine.Proofs.RecordOrder
import PageMachine.Proofs.AnnouncedRun
import PageMachine.Proofs.ConstantGrammar
import PageMachine.Proofs.OperandField
import PageMachine.Proofs.RegisterSpelling
import PageMachine.Proofs.NumberInput
import PageMachine.Proofs.FieldArithmetic
import PageMachine.Proofs.GeneratorState
import PageMachine.Proofs.LiteralOrder
import PageMachine.Proofs.SymbolHistory
