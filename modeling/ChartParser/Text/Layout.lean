/-
Documents that fit a line width.

A document is a sequence of texts and soft lines.  A soft line becomes one space
if the text up to the next soft line still fits in the width, and a line break
followed by its indentation otherwise.  Widths and columns count the bytes of the
UTF-8 form, and a line break inside a text counts as one of its bytes.
-/
namespace ChartParser.Text

/-- A piece of a document. -/
inductive Piece where
  | text (s : String)
  | softline (indent : Nat)
deriving DecidableEq, Repr

/-- A document, as its pieces in order. -/
abbrev Doc := List Piece

namespace Doc

/-- A text that never breaks. -/
def text (s : String) : Doc := [.text s]

/-- A place where the line may break, at indentation 0. -/
def softline : Doc := [.softline 0]

/-- Indents every soft line of a document by `n` more columns. -/
def nest (n : Nat) (d : Doc) : Doc :=
  d.map fun
    | .text s => .text s
    | .softline indent => .softline (indent + n)

/-- The documents of a list with a separator between neighbours. -/
def separated (separator : Doc) : List Doc → Doc
  | [] => []
  | d :: ds => d ++ ds.flatMap (separator ++ ·)

/-- The number of bytes before the next soft line. -/
def runLength : Doc → Nat
  | .text s :: rest => s.utf8ByteSize + runLength rest
  | _ => 0

/-- The texts a document is laid out as, from a given column on. -/
def layout (width column : Nat) : Doc → List String
  | [] => []
  | .text s :: rest => s :: layout width (column + s.utf8ByteSize) rest
  | .softline indent :: rest =>
    if column + 1 + runLength rest ≤ width then
      " " :: layout width (column + 1) rest
    else
      "\n" :: String.ofList (List.replicate indent ' ') :: layout width indent rest

/-- The text of a document for lines of `width` bytes. -/
def render (width : Nat) (d : Doc) : String := String.join (layout width 0 d)

end Doc

end ChartParser.Text
