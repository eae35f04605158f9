namespace MarkupQuery.Xml

def escapeInQuotes : Char → List Char
  | '<' => "&lt;".toList
  | '>' => "&gt;".toList
  | '&' => "&amp;".toList
  | '\'' => "&apos;".toList
  | '"' => "&quot;".toList
  | c => [c]

def escapeInContent : Char → List Char
  | '<' => "&lt;".toList
  | '>' => "&gt;".toList
  | '&' => "&amp;".toList
  | c => [c]

def quotedText (value : String) : String := String.ofList (value.toList.flatMap escapeInQuotes)

def contentText (text : String) : String := String.ofList (text.toList.flatMap escapeInContent)

end MarkupQuery.Xml
