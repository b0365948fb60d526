import SLanguage.Call

/-!
# Drawing a call

`Call.drawing` shows a call as a tree, one node a line.
-/

namespace SLanguage

namespace Argument

def nodeText : Argument → String
  | leaf (.constant k) => "Constant<" ++ Word.text k ++ ">"
  | leaf v => "Variable<" ++ v.text ++ ">"
  | call name _ => "Call<" ++ name ++ ">"

mutual

/-- The lines of an argument: the first after `lead`, the others after `indent`. -/
def drawing (lead indent : String) : Argument → String
  | leaf v => lead ++ (leaf v).nodeText
  | call name arguments => lead ++ (call name arguments).nodeText ++ listDrawing indent arguments

def listDrawing (indent : String) : List Argument → String
  | [] => ""
  | [last] => "\n" ++ last.drawing (indent ++ "└── ") (indent ++ "    ")
  | a :: b :: rest =>
    "\n" ++ a.drawing (indent ++ "├── ") (indent ++ "│   ") ++ listDrawing indent (b :: rest)

end

end Argument

def Call.drawing (c : Call) : String := c.toArgument.drawing "" ""

end SLanguage
