import SLanguage.Demo

/-! Prints the demonstration. -/

def main : IO UInt32 :=
  match SLanguage.Demo.transcript 1000000 with
  | .done text => do
    IO.print text
    return 0
  | .failed e => do
    IO.eprintln e.message
    return 1
  | .unfinished => do
    IO.eprintln "the demonstration did not end"
    return 1
