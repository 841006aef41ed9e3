/-!
# HTML element names

Names that belong to HTML itself and are never offered as tag helpers.
-/

namespace PolyglotLsp.Markup

/-- A text with its ASCII letters in lower case. -/
def foldCase (s : String) : String := s.map Char.toLower

/-- Equality up to the case of ASCII letters. -/
def equalFold (a b : String) : Bool := foldCase a == foldCase b

/-- The element names of HTML, old and new. -/
def htmlTagNames : List String := [
  "a", "abbr", "acronym", "address", "applet", "area", "article", "aside", "audio", "b", "base",
  "basefont", "bdi", "bdo", "bgsound", "big", "blink", "blockquote", "body", "br", "button",
  "canvas", "caption", "center", "cite", "code", "col", "colgroup", "command", "content",
  "data", "datalist", "dd", "del", "details", "dfn", "dialog", "dir", "div", "dl", "dt",
  "element", "em", "embed", "fieldset", "figcaption", "figure", "font", "footer", "form",
  "frame", "frameset", "h1", "h2", "h3", "h4", "h5", "h6", "head", "header", "hgroup", "hr",
  "html", "i", "iframe", "image", "img", "input", "ins", "isindex", "kbd", "keygen", "label",
  "legend", "li", "link", "listing", "main", "map", "mark", "marquee", "menu", "menuitem",
  "meta", "meter", "multicol", "nav", "nextid", "nobr", "noembed", "noframes", "noscript",
  "object", "ol", "optgroup", "option", "output", "p", "param", "picture", "plaintext", "pre",
  "progress", "q", "rb", "rp", "rt", "rtc", "ruby", "s", "samp", "script", "section", "select",
  "shadow", "slot", "small", "source", "spacer", "span", "strike", "strong", "style", "sub",
  "summary", "sup", "svg", "table", "tbody", "td", "template", "textarea", "tfoot", "th",
  "thead", "time", "title", "tr", "track", "tt", "u", "ul", "var", "video", "wbr", "xmp"]

/-- Whether a name is that of an HTML element, in any case. -/
def isHtmlTagName (name : String) : Bool := htmlTagNames.any (equalFold · name)

end PolyglotLsp.Markup
