import PageLocalizer.Document.Tree
-- A page written as markup.
namespace PageLocalizer

namespace Markup

-- Elements that have neither children nor a closing tag.
def voidTags : List String := ["br", "hr", "img", "input", "link", "meta"]

def escapeChar (quoted : Bool) : Char → List Char
  | '&' => "&amp;".toList
  | '<' => "&lt;".toList
  | '>' => "&gt;".toList
  | '"' => if quoted then "&quot;".toList else ['"']
  | c => [c]

-- Quotes are escaped inside quoted attribute values only.
def escape (quoted : Bool) (s : String) : List Char := s.toList.flatMap (escapeChar quoted)

def attributeText (a : String × String) : List Char :=
  ' ' :: a.1.toList ++ "=\"".toList ++ escape true a.2 ++ ['"']

def openTag (e : Element) : List Char :=
  '<' :: e.tag.toList ++ e.attributes.flatMap attributeText ++ ['>']

def closeTag (e : Element) : List Char := "</".toList ++ e.tag.toList ++ ['>']

def doctype : List Char := "<!DOCTYPE html>".toList

end Markup

namespace Document

-- The markup of a node and of what lies up to `levels - 1` levels below it.
def markup (d : Document) : Nat → NodeId → List Char
  | 0, _ => []
  | levels + 1, id =>
    match d.kind? id with
    | some .document => Markup.doctype ++ (d.children id).flatMap (d.markup levels)
    | some (.element e) =>
      if e.tag ∈ Markup.voidTags then Markup.openTag e
      else Markup.openTag e ++ (d.children id).flatMap (d.markup levels) ++ Markup.closeTag e
    | some (.text data) => Markup.escape false data
    | none => []

-- A node with everything below it. The document starts with the doctype.
def outerHtml (d : Document) (id : NodeId) : String :=
  String.ofList (d.markup (d.allocated + 1) id)

def innerHtml (d : Document) (id : NodeId) : String :=
  String.ofList ((d.children id).flatMap (d.markup (d.allocated + 1)))

end Document
end PageLocalizer
