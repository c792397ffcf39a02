import MeteredVM.Schedule
import MeteredVM.Gas.Storage
import MeteredVM.Gas.Meter
import MeteredVM.Code
import MeteredVM.Stack
import MeteredVM.Memory
import MeteredVM.Environment
import MeteredVM.ContractAddress
import MeteredVM.Store
import MeteredVM.Journal.Load
import MeteredVM.Sandbox
import MeteredVM.Frame.Run
import MeteredVM.Main
import MeteredVM.Proofs.Journal.Operations
import MeteredVM.Proofs.Journal.Writes
import MeteredVM.Proofs.Session.Frugal
import MeteredVM.Proofs.Session.Static
import MeteredVM.Proofs.Session.Failure
import MeteredVM.Proofs.Session.Refund
import MeteredVM.Proofs.Session.Conservation
import MeteredVM.Proofs.Session.Authority
import MeteredVM.Proofs.Session.Warmth
import MeteredVM.Proofs.Session.Settlement
import MeteredVM.Proofs.Session.Halt
import MeteredVM.Proofs.Session.Label
import MeteredVM.Proofs.Session.Remains
import MeteredVM.Proofs.Session.Interchange
import MeteredVM.Proofs.Session.Undone
import MeteredVM.Proofs.Journal.Refusal
import MeteredVM.Proofs.Journal.Newborn
import MeteredVM.Proofs.Session.Repayment
import MeteredVM.Proofs.Frame.Table
import MeteredVM.Proofs.Arithmetic.Signed
import MeteredVM.Proofs.Frame.Callee
import MeteredVM.Proofs.Schedule
import MeteredVM.Proofs.Frame.Copy
import MeteredVM.Proofs.Sandbox
import MeteredVM.Proofs.Gas.Exponent
