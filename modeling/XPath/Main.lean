import XPath.CommandLine

/-!
# The program

`xpath [--max-depth=N] [--division-precision=N] COMMAND [--json] -- EXPRESSION`
-/

namespace XPath

/-- What is printed for arguments that are no request. -/
def usage : String :=
  "usage: xpath [--max-depth=N] [--division-precision=N] (tokenize|parse|render|check) " ++
    "[--json] -- EXPRESSION"

end XPath

/-- Without a request the exit code is 2, as for any wrong usage. -/
def main (args : List String) : IO UInt32 := do
  match XPath.Request.run? args with
  | none =>
    IO.eprintln XPath.usage
    return 2
  | some outcome =>
    IO.print outcome.stdout
    IO.eprint outcome.stderr
    return outcome.exitCode.toUInt32
