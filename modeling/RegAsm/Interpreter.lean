import RegAsm.Machine.Log

namespace RegAsm

namespace Limits

def parse (limits : Limits) (source : String) : Except Fault Program :=
  if limits.maxSourceBytes.toNat < source.utf8ByteSize then
    .error (.sourceSizeLimit limits.maxSourceBytes)
  else Program.parse source

def run (limits : Limits) (budget : Nat) (source : String) : Option Outcome :=
  match limits.parse source with
  | .error f => some (.fault f)
  | .ok p => (Machine.run p limits budget {}).map Prod.fst

def runLogged (limits : Limits) (budget : Nat) (source : String) :
    Option (Outcome × Array Record) :=
  match limits.parse source with
  | .error f => some (.fault f, #[])
  | .ok p =>
    let (log, answer, s) :=
      Machine.advanceLogged p limits budget {} #[.parsed p.size p.labels.size]
    (answer.outcome? s).map (·, log ++ (Machine.closing s answer).toArray)

end Limits

def interpret (budget : Nat) (source : String) : Option Outcome :=
  match Program.parse source with
  | .error f => some (.fault f)
  | .ok p => (Machine.run p {} budget {}).map Prod.fst

end RegAsm
