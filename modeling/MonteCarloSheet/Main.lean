import MonteCarloSheet.CommandLine.Run

/-! The program: reads its arguments, prints a report and exits with its code. -/
namespace MonteCarloSheet

open CommandLine

def usage : String :=
  "usage: montecarlosheet [--samples N] [--seed N] [--decimals N] [-v] NAME=FORMULA ..."

/-- A seed from the system for a run without one. -/
def freshSeed : IO Int := do
  let bytes ← IO.getRandomBytes 16
  return bytes.toList.foldl (fun n byte => 256 * n + byte.toNat) 0

/-- Prints a report, errors and warnings apart. -/
def printReport : Report → IO Unit
  | .error message => IO.eprintln message
  | .cells entries _ warning => do
    if let some text := warning then IO.eprintln text
    entries.forM IO.println
  | .failed f => IO.eprintln f.message

end MonteCarloSheet

open MonteCarloSheet CommandLine in
def main (arguments : List String) : IO UInt32 := do
  match CommandLine.read arguments with
  | .help =>
    IO.println usage
    return 0
  | .refused =>
    IO.eprintln usage
    return 2
  | .options o =>
    let seed ← match o.seed with
      | .nothing => Given.whole <$> freshSeed
      | seed => pure seed
    let result := report .permuted none { o with seed }
    printReport result
    return result.code
