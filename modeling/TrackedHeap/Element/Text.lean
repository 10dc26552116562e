import TrackedHeap.Binary64.Text
import TrackedHeap.Element.Basic

/-!
# TrackedHeap.Element.Text

**The text** of elements and of lists of them, on one line or with a line for each
part.
-/

namespace TrackedHeap

/-- The text of a character between quotes. -/
def quotedChar : Char → String
  | '"' => "\\\""
  | '\\' => "\\\\"
  | '\n' => "\\n"
  | '\r' => "\\r"
  | '\t' => "\\t"
  | c => c.toString

/-- A text between quotes. -/
def quoted (s : String) : String := "\"" ++ String.join (s.toList.map quotedChar) ++ "\""

/-- Parts between brackets: on one line, or each on a line of its own, set in once more
than the brackets and followed by a comma. -/
def bracketed (opening closing : String) (oneLine : Bool) (indent : Nat) (parts : List String) :
    String :=
  if oneLine then opening ++ ", ".intercalate parts ++ closing
  else
    let line part := "".pushn ' ' (4 * (indent + 1)) ++ part ++ ",\n"
    opening ++ "\n" ++ String.join (parts.map line) ++ "".pushn ' ' (4 * indent) ++ closing

/-- The text of an element that stands at this depth. -/
def Element.render (oneLine : Bool) (indent : Nat) : Element → String
  | int n => toString n
  | text s => quoted s
  | pair n s => bracketed "(" ")" oneLine indent [toString n, quoted s]
  | real x => x.text

/-- The text of a list of elements. An empty list takes one line. -/
def Element.renderList (oneLine : Bool) (values : List Element) : String :=
  if values.isEmpty then "[]"
  else bracketed "[" "]" oneLine 0 (values.map (Element.render oneLine 1))

end TrackedHeap
