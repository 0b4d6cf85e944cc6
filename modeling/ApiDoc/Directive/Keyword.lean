import ApiDoc.Directive.Kind
import ApiDoc.Text.Byte
import ApiDoc.Text.Utf8

/-!
# Keywords

A directive opens with a keyword: the spelling of its kind or a three-digit
response code. The spellings stand in one table, sorted by bytes.

* `Keyword.lookup?` finds a spelling by bisection.
* `Keyword.classify?` reads a whole word as a kind.
* `Keyword.opensDirective` tells whether a line opens a directive: it starts
  with a keyword and the word ends there.
-/

namespace ApiDoc.Keyword

/-- Every spelling with its kind, in the order of the bytes. -/
def table : List (String × Kind) :=
  [("BaseUrl", .baseUrl), ("Body", .body), ("DELETE", .delete), ("Description", .description),
    ("ENUM", .enumDef), ("GET", .get), ("Headers", .headers), ("INFO", .info),
    ("JSIGHT", .jsight), ("MACRO", .macroDef), ("Method", .method),
    ("OperationId", .operationId), ("PASTE", .paste), ("PATCH", .patch), ("POST", .post),
    ("PUT", .put), ("Params", .params), ("Path", .path), ("Protocol", .protocol),
    ("Query", .query), ("Request", .request), ("Result", .result), ("SERVER", .server),
    ("TAG", .tag), ("TYPE", .typeDef), ("Tags", .tags), ("Title", .title), ("URL", .url),
    ("Version", .version)]

/-- The table with its spellings as bytes. -/
def entries : List (List UInt8 × Kind) :=
  table.map fun (spelling, kind) => (Utf8.bytes spelling, kind)

/-! ## Look-up -/

/-- Looks for `word` among the entries from `lo` up to `hi`, `hi` left out. -/
def bisect (entries : Array (List UInt8 × Kind)) (word : List UInt8) (lo hi : Nat)
    (bound : hi ≤ entries.size) : Option Kind :=
  if h : lo < hi then
    let mid := lo + (hi - lo) / 2
    have : mid < entries.size := by omega
    match compare entries[mid].1 word with
    | .eq => some entries[mid].2
    | .lt => bisect entries word (mid + 1) hi bound
    | .gt => bisect entries word lo mid (by omega)
  else none
termination_by hi - lo

/-- The kind that `word` spells. -/
def lookup? (word : List UInt8) : Option Kind :=
  bisect entries.toArray word 0 entries.toArray.size (Nat.le_refl _)

/-! ## Response codes -/

/-- The first digit of a response code. -/
def isCodeLead (b : UInt8) : Bool :=
  0x31 ≤ b && b ≤ 0x35

/-- Whether the first three bytes are a response code. -/
def opensCode : List UInt8 → Bool
  | a :: b :: c :: _ => isCodeLead a && Byte.isDigit b && Byte.isDigit c
  | _ => false

/-- Whether `word` is a response code and no more. -/
def isCode (word : List UInt8) : Bool :=
  word.length == 3 && opensCode word

/-! ## Words and lines -/

/-- The kind of the directive that the word `text` opens. -/
def classify? (text : String) : Option Kind :=
  let word := Utf8.bytes text
  lookup? word <|> (if isCode word then some .responseCode else none)

/-- Whether a word that goes on with these bytes ends before them. -/
def endsWord : List UInt8 → Bool
  | [] => true
  | b :: _ => Byte.isBlank b || Byte.isBreak b || b == Byte.openParen

/-- Whether a line opens a directive. -/
def opensDirective (line : List UInt8) : Bool :=
  (opensCode line && endsWord (line.drop 3))
    || entries.any fun (spelling, _) =>
      spelling.isPrefixOf line && endsWord (line.drop spelling.length)

end ApiDoc.Keyword
