/-! What the command line says about itself. -/

namespace Chalkboard.CommandLine

def usage : String :=
  "Usage:\n" ++
  "  tomos [options] <source> [--cfg=<conf>]...\n" ++
  "  tomos -h | --help\n" ++
  "  tomos --version"

def help : String :=
  "Tomos, the Ayed2 interpreter.\n" ++
  "    Interprets the program, and prints the final state.\n" ++
  "\n" ++ usage ++ "\n" ++
  "\n" ++
  "Options:\n" ++
  "    --movie=<fname>       Generates a movie with the execution (implicitly\n" ++
  "                          cancels --no-run if set). Must be a .mp4 file.\n" ++
  "    --autoplay            Autoplay the movie. Implicitly sets --movie=movie.mp4\n" ++
  "                          if not set.\n" ++
  "    --explicit-frames     Only build frames for sentences that are explicitly\n" ++
  "                          requested (ending in //checkpoint).\n" ++
  "    --no-run              Skips executing the program. Useful for debugging.\n" ++
  "    --no-final-state      Skips printing the final state.\n" ++
  "    --showast             Show the abstract syntax tree.\n" ++
  "    --save-state=<fname>  Save the final state to a file.\n" ++
  "    --load-state=<fname>  Load the state from a file.\n" ++
  "    --cfg=<conf>          Overrides configurations one by one.\n" ++
  "    --version             Show version and exit.\n" ++
  "    -h --help             Show this message and exit."

def version : String := "Tomos version 0.1.5"

end Chalkboard.CommandLine
