import RegAsm.Interpreter
import RegAsm.Interpreter.Bounded
import RegAsm.Exchange.Fault
import RegAsm.Embedding
import RegAsm.Proofs.Machine.Reachable
import RegAsm.Proofs.Reading.Grammar
import RegAsm.Proofs.Printing.RoundTrip
import RegAsm.Proofs.Machine.FlatSimulation
import RegAsm.Proofs.Machine.Blame
import RegAsm.Proofs.Machine.Nesting
import RegAsm.Proofs.Machine.Persistence
import RegAsm.Proofs.Reading.FaultLines
import RegAsm.Proofs.Machine.Forward
import RegAsm.Proofs.Machine.History
import RegAsm.Proofs.Reading.Concatenation
import RegAsm.Proofs.Reading.Pointing
import RegAsm.Proofs.Exchange.Lossless
import RegAsm.Proofs.Embedding
import RegAsm.Proofs.Literal.Elements
import RegAsm.Proofs.Machine.Renaming
import RegAsm.Proofs.Machine.Failure
import RegAsm.Proofs.Machine.Log
import RegAsm.Proofs.Reading.Lexemes
import RegAsm.Proofs.Reading.Arguments
import RegAsm.Proofs.Reading.Unquoted
import RegAsm.Proofs.Text.ByteOrder
import RegAsm.Proofs.Labels.Exact
import RegAsm.Proofs.Arithmetic
import RegAsm.Proofs.Literal.Spellings
import RegAsm.Proofs.Reading.Numerals
import RegAsm.Proofs.Reading.Tokens
import RegAsm.Proofs.Registers
