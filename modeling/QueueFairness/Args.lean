import QueueFairness.FairnessLogger

/-!
# The command line

`args.cpp`: what `parse_args` makes of the arguments, or how it ends the program.
-/

namespace QueueFairness.Args

open FairnessLogger (int)

structure Options where
  queues : List String := []
  trials : Int := 100
  ops : Int := 10000
  maxThreads : Int := 16
  deriving DecidableEq

/-- `std::exit(code)`, with what was written to `std::cerr`. -/
structure Exit where
  code : Nat
  cerr : String
  deriving DecidableEq

def splitCsv (s : List Char) : List String :=
  ((s.splitOn ',').filter (· ≠ [])).map String.ofList

def usage (prog : String) : String :=
  "Usage: " ++ prog ++ " [--queue=ms|fc|lcrq|lprq|faa|all] [--trials=N] [--ops=N] [--threads=N]\n"

/-- `isspace`, in the C locale. -/
def isSpace (c : Char) : Bool := c.toNat = 32 ∨ 9 ≤ c.toNat ∧ c.toNat ≤ 13

/-- The number that a string of digits begins with. -/
def digits (s : List Char) : Option Int :=
  let ds := s.takeWhile Char.isDigit
  if ds = [] then none else some (ds.foldl (fun n c => 10 * n + (c.toNat - 48)) 0)

/-- `std::stoi`; `none` when it throws. -/
def stoi (s : List Char) : Option Int :=
  match s.dropWhile isSpace with
  | '-' :: ds => (digits ds).bind fun n => int (-n)
  | '+' :: ds => (digits ds).bind int
  | ds => (digits ds).bind int

/-- An argument, with what follows its `=`. -/
inductive Arg where
  | queue (val : List Char)
  | trials (val : List Char)
  | ops (val : List Char)
  | threads (val : List Char)
  | help
  | unknown
  deriving DecidableEq

/-- Which branch of `parse_args` an argument is for. -/
def Arg.of (arg : String) : Arg :=
  if "--queue=".toList.isPrefixOf arg.toList then .queue (arg.toList.drop 8)
  else if "--trials=".toList.isPrefixOf arg.toList then .trials (arg.toList.drop 9)
  else if "--ops=".toList.isPrefixOf arg.toList then .ops (arg.toList.drop 6)
  else if "--threads=".toList.isPrefixOf arg.toList then .threads (arg.toList.drop 10)
  else if arg = "--help" ∨ arg = "-h" then .help
  else .unknown

def allQueues : List String := ["ms", "fc", "lprq", "faa"]

/-- An iteration of the loop of `parse_args`. -/
def parseArg (prog : String) (opts : Options) (arg : String) : Except Exit Options :=
  match Arg.of arg with
  | .queue val =>
      .ok { opts with queues := if val = "all".toList then allQueues else splitCsv val }
  | .trials val =>
      match stoi val with
      | some n => .ok { opts with trials := n }
      | none => .error ⟨1, usage prog⟩
  | .ops val =>
      match stoi val with
      | some n => .ok { opts with ops := n }
      | none => .error ⟨1, usage prog⟩
  | .threads val =>
      match stoi val with
      | some n => .ok { opts with maxThreads := n }
      | none => .error ⟨1, usage prog⟩
  | .help => .error ⟨0, usage prog⟩
  | .unknown => .error ⟨1, "Unknown arg: " ++ arg ++ "\n" ++ usage prog⟩

def parseArgs (prog : String) (args : List String) : Except Exit Options := do
  let opts ← args.foldlM (parseArg prog) {}
  return if opts.queues = [] then { opts with queues := allQueues } else opts

end QueueFairness.Args
