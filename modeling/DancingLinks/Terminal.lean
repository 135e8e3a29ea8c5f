/-! # Terminal colours

Emphasis by escape sequences: one that switches it on before the text, one that resets it after.
-/
namespace DancingLinks

inductive Emphasis where
  | boldYellow
  | boldGreen
  | yellow
  | red
  | dimmed
deriving DecidableEq

namespace Emphasis

def codes : Emphasis → String
  | .boldYellow => "1;33"
  | .boldGreen => "1;32"
  | .yellow => "33"
  | .red => "31"
  | .dimmed => "2"

def apply (colors : Bool) (e : Emphasis) (text : String) : String :=
  if colors then "\x1b[" ++ e.codes ++ "m" ++ text ++ "\x1b[0m" else text

end Emphasis

end DancingLinks
